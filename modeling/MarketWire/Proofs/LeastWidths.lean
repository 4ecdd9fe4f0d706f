import Mathlib.Data.Nat.Size
import MarketWire.Proofs.ShortestForms

/-! The least width of an integer.

An integer comes back from its lowest bytes exactly if there are no fewer of them than its least width, and what is read
from some bytes has a least width of no more. The least width is what is left of the widest one when bytes are dropped
as long as the bits above the last one of the others tell no more than the sign.
-/

set_option autoImplicit false

namespace MarketWire.Width

/-! ## Integers that a width holds -/

theorem ofUnsigned_le_iff {n : UInt64} {width : Nat} : ofUnsigned n ≤ width ↔ n.toNat < 256 ^ width := by
  refine ⟨lt_of_ofUnsigned_le, fun holds => ?_⟩
  by_cases most : 8 ≤ width
  · exact Nat.le_trans (ofUnsigned_le_eight n) most
  have member : width ∈ List.range 8 := List.mem_range.mpr (by omega)
  unfold ofUnsigned
  cases found : (List.range 8).find? fun width => n.toNat < Nat.pow 256 width with
  | none => exact absurd (decide_eq_true holds) (List.find?_eq_none.mp found width member)
  | some least =>
    -- A width that was passed over does not hold the number.
    obtain ⟨-, -, passed⟩ := List.find?_range_eq_some.mp found
    refine Nat.le_of_not_lt fun below => ?_
    have refused := passed width below
    rw [Bool.not_eq_true'] at refused
    exact of_decide_eq_false refused holds

theorem ofSigned_le_iff {n : Int64} {width : Nat} :
    ofSigned n ≤ width ↔ n = 0 ∨ (0 < width ∧ Fits width n.toInt) := by
  refine ⟨fits_of_ofSigned_le, ?_⟩
  rintro (rfl | ⟨positive, fits⟩)
  · exact Nat.zero_le width
  by_cases most : 8 ≤ width
  · exact Nat.le_trans (ofSigned_le_eight n) most
  have member : width ∈ List.range' 1 7 := List.mem_range'_1.mpr (by omega)
  unfold ofSigned
  split
  case isTrue => exact Nat.zero_le width
  case isFalse =>
    cases found : (List.range' 1 7).find? fun width => Fits width n.toInt with
    | none => exact absurd (decide_eq_true fits) (List.find?_eq_none.mp found width member)
    | some least =>
      obtain ⟨-, -, passed⟩ := List.find?_range'_eq_some.mp found
      refine Nat.le_of_not_lt fun below => ?_
      have refused := passed width positive below
      rw [Bool.not_eq_true'] at refused
      exact of_decide_eq_false refused fits

/-! ## The search for the least width -/

/-- The width that is left when bytes are dropped from a width on, as long as nothing but the sign stands above the last
bit of the others. -/
def narrowed (n : Int) : Nat → Nat
  | width + 2 =>
    let above := n >>> ((width + 1) * 8 - 1)
    if above = 0 ∨ above = -1 then narrowed n (width + 1) else width + 2
  | width => width

theorem shiftRight_sign_iff (n : Int) (width : Nat) :
    (n >>> (width * 8 - 1) = 0 ∨ n >>> (width * 8 - 1) = -1) ↔ Fits width n := by
  unfold Fits
  rw [Int.shiftRight_eq_div_pow, Nat.mul_comm 8]
  change _ ↔ -((2 ^ (width * 8 - 1) : Nat) : Int) ≤ n ∧ n < (2 ^ (width * 8 - 1) : Nat)
  have positive : 0 < ((2 ^ (width * 8 - 1) : Nat) : Int) := Int.natCast_pos.mpr (Nat.two_pow_pos _)
  generalize ((2 ^ (width * 8 - 1) : Nat) : Int) = bound at positive
  rw [Int.ediv_eq_iff_of_pos positive, Int.ediv_eq_iff_of_pos positive]
  omega

theorem narrowed_pos (n : Int) {most : Nat} (positive : 0 < most) : 0 < narrowed n most := by
  fun_induction narrowed n most with
  | case1 width above sign ih => exact ih (Nat.succ_pos width)
  | case2 width above bits => exact Nat.succ_pos _
  | case3 width => exact positive

/-- The search goes down to the least width that holds the number. -/
theorem narrowed_le_iff {n : Int} {most width : Nat} (positive : 0 < most) (fits : Fits most n) (wide : 0 < width) :
    narrowed n most ≤ width ↔ Fits width n := by
  fun_induction narrowed n most with
  | case1 least above sign ih => exact ih (Nat.succ_pos least) ((shiftRight_sign_iff n _).mp sign)
  | case2 least above bits =>
    refine ⟨fits.mono, fun narrower => ?_⟩
    refine Nat.le_of_not_lt fun below => bits ((shiftRight_sign_iff n _).mpr ?_)
    exact narrower.mono (Nat.le_of_lt_succ below)
  | case3 last single =>
    obtain rfl : last = 1 := by
      rcases last with _ | _ | width
      · exact absurd positive (Nat.lt_irrefl 0)
      · rfl
      · exact (single width rfl).elim
    exact ⟨fits.mono, fun _ => wide⟩

theorem ofSigned_eq_narrowed (n : Int64) : ofSigned n = if n = 0 then 0 else narrowed n.toInt 8 := by
  split
  case isTrue zero => exact if_pos zero
  case isFalse other =>
    have positive : 0 < narrowed n.toInt 8 := narrowed_pos _ (by decide)
    have search {width : Nat} (wide : 0 < width) : narrowed n.toInt 8 ≤ width ↔ Fits width n.toInt :=
      narrowed_le_iff (by decide) (fits_eight n) wide
    apply Nat.le_antisymm
    · exact ofSigned_le_iff.mpr (.inr ⟨positive, (search positive).mp (Nat.le_refl _)⟩)
    · obtain ⟨wide, fits⟩ := (ofSigned_le_iff.mp (Nat.le_refl (ofSigned n))).resolve_left other
      exact (search wide).mpr fits

theorem ofUnsigned_eq_size (n : UInt64) : ofUnsigned n = (n.toNat.size + 7) / 8 := by
  have same (width : Nat) : ofUnsigned n ≤ width ↔ (n.toNat.size + 7) / 8 ≤ width := by
    rw [ofUnsigned_le_iff, show 256 ^ width = 2 ^ (8 * width) from (Nat.pow_mul 2 8 width).symm, ← Nat.size_le]
    omega
  exact Nat.le_antisymm ((same _).mpr (Nat.le_refl _)) ((same _).mp (Nat.le_refl _))

/-! ## What is read from some bytes -/

theorem signed_fits {width : Nat} (positive : 0 < width) (n : Nat) : Fits width (signed width n) := by
  have above : 0 < 256 ^ width := Nat.pow_pos (by decide)
  have least : -(((256 ^ width : Nat) : Int) / 2) ≤ signed width n := Int.le_bmod above
  have greatest : signed width n < (((256 ^ width : Nat) : Int) + 1) / 2 := Int.bmod_lt above
  have double := half_mul_two positive
  unfold Fits
  omega

theorem readSigned_bytes {bytes : Bytes} (most : bytes.length ≤ 8) (rest : Bytes) :
    ∃ n, readSigned bytes.length (bytes ++ rest) = .ok n rest ∧ ofSigned n ≤ bytes.length := by
  refine ⟨.ofInt (signed bytes.length bytes.toNat), ?_, ofSigned_le_iff.mpr ?_⟩
  · unfold readSigned Read.number
    rw [if_pos most, bind_assoc, Program.bind_ok (Read.bytes_append rfl rest)]
    rfl
  · rcases Nat.eq_zero_or_pos bytes.length with empty | positive
    · obtain rfl := List.length_eq_zero_iff.mp empty
      exact .inl rfl
    · have fits := signed_fits positive bytes.toNat
      obtain ⟨least, greatest⟩ := fits.mono most
      rw [Int64.toInt_ofInt_of_le least greatest]
      exact .inr ⟨positive, fits⟩

theorem readUnsigned_bytes {bytes : Bytes} (most : bytes.length ≤ 8) (rest : Bytes) :
    ∃ n, readUnsigned bytes.length (bytes ++ rest) = .ok n rest ∧ ofUnsigned n ≤ bytes.length := by
  refine ⟨.ofNat bytes.toNat, ?_, ofUnsigned_le_iff.mpr ?_⟩
  · unfold readUnsigned Read.number
    rw [if_pos most, bind_assoc, Program.bind_ok (Read.bytes_append rfl rest)]
    rfl
  · have small := Bytes.toNat_lt bytes
    have bound : 256 ^ bytes.length ≤ 2 ^ 64 := Nat.pow_le_pow_right (n := 256) (by decide) most
    rwa [UInt64.toNat_ofNat_of_lt' (Nat.lt_of_lt_of_le small bound)]

/-! ## Coming back -/

/-- The lowest bytes of an integer are appended as a whole, and they are read as the integer exactly if there are no
fewer of them than its least width. Whatever is read from some bytes has a least width of no more. The least width is
found by dropping bytes that tell no more than the sign, or by counting the bits of a number without a sign. -/
theorem reads_back_iff_least :
    (∀ (n : Int64) (width : Nat), width ≤ 8 →
      (writeSigned n width).Appends (Bytes.ofNat width n.toUInt64.toNat) ∧ ∀ rest,
        readSigned width (Bytes.ofNat width n.toUInt64.toNat ++ rest) = .ok n rest ↔ ofSigned n ≤ width) ∧
    (∀ (n : UInt64) (width : Nat), width ≤ 8 →
      (writeUnsigned n width).Appends (Bytes.ofNat width n.toNat) ∧ ∀ rest,
        readUnsigned width (Bytes.ofNat width n.toNat ++ rest) = .ok n rest ↔ ofUnsigned n ≤ width) ∧
    (∀ bytes rest : Bytes, bytes.length ≤ 8 →
      (∃ n, readSigned bytes.length (bytes ++ rest) = .ok n rest ∧ ofSigned n ≤ bytes.length) ∧
        ∃ n, readUnsigned bytes.length (bytes ++ rest) = .ok n rest ∧ ofUnsigned n ≤ bytes.length) ∧
    (∀ n : Int64, ofSigned n = if n = 0 then 0 else narrowed n.toInt 8) ∧
      ∀ n : UInt64, ofUnsigned n = (n.toNat.size + 7) / 8 := by
  refine ⟨?_, ?_, ?_, ofSigned_eq_narrowed, ofUnsigned_eq_size⟩
  · intro n width most
    refine ⟨writeUnsigned_appends most _, fun rest => ⟨fun comesBack => ?_, fun least => ?_⟩⟩
    · have length := Bytes.length_ofNat width n.toUInt64.toNat
      obtain ⟨found, read, le⟩ := readSigned_bytes (Nat.le_trans (Nat.le_of_eq length) most) rest
      rw [length, comesBack] at read
      cases read
      exact length ▸ le
    · exact readSigned_ofNat most least rest
  · intro n width most
    refine ⟨writeUnsigned_appends most _, fun rest => ⟨fun comesBack => ?_, fun least => ?_⟩⟩
    · have length := Bytes.length_ofNat width n.toNat
      obtain ⟨found, read, le⟩ := readUnsigned_bytes (Nat.le_trans (Nat.le_of_eq length) most) rest
      rw [length, comesBack] at read
      cases read
      exact length ▸ le
    · exact readUnsigned_ofNat most least rest
  · intro bytes rest most
    exact ⟨readSigned_bytes most rest, readUnsigned_bytes most rest⟩

/-- Just below the numbers of one byte stands -129: two bytes give it back, one byte gives 127. The bytes of 128 without
a sign are as few as one, with a sign they are two. -/
theorem reads_back_iff_least_boundaries :
    readSigned 2 [0xFF, 0x7F] = .ok (-129) [] ∧ readSigned 1 [0x7F] ≠ .ok (-129) [] ∧
      ofSigned 128 = 2 ∧ readUnsigned 1 [0x80] = .ok 128 [] ∧
      ∃ n, readSigned 1 [0x80] = .ok n [] ∧ ofSigned n ≤ 1 := by
  obtain ⟨signed, unsigned, bytes, search, -⟩ := reads_back_iff_least
  have inTwo := (signed (-129) 2 (by decide)).2 []
  have inOne := (signed (-129) 1 (by decide)).2 []
  have natural := (unsigned 128 1 (by decide)).2 []
  rw [show Bytes.ofNat 2 (-129 : Int64).toUInt64.toNat ++ [] = [0xFF, 0x7F] by decide] at inTwo
  rw [show Bytes.ofNat 1 (-129 : Int64).toUInt64.toNat ++ [] = [0x7F] by decide] at inOne
  rw [show Bytes.ofNat 1 (128 : UInt64).toNat ++ [] = [0x80] by decide] at natural
  refine ⟨inTwo.mpr (by decide), fun wrong => absurd (inOne.mp wrong) (by decide), ?_, natural.mpr (by decide),
    (bytes [0x80] [] (by decide)).1⟩
  rw [search]
  decide

end MarketWire.Width
