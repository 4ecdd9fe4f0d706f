import MarketWire.Bytes.Width
import MarketWire.Proofs.Frames

/-! Integers in a width that holds them.

The bytes of a signed integer are its lowest ones in two's complement. A width that is no less than
the least one loses nothing: the bytes read back as the integer.
-/

set_option autoImplicit false

namespace MarketWire.Width

theorem Fits.mono {width wider : Nat} {n : Int} (fits : Fits width n) (le : width ≤ wider) :
    Fits wider n := by
  have grows : Nat.pow 2 (8 * width - 1) ≤ Nat.pow 2 (8 * wider - 1) :=
    Nat.pow_le_pow_right (by decide) (by omega)
  unfold Fits at fits ⊢
  omega

theorem fits_eight (n : Int64) : Fits 8 n.toInt :=
  ⟨n.le_toInt, n.toInt_lt⟩

theorem fits_of_ofSigned_le {n : Int64} {width : Nat} (le : ofSigned n ≤ width) :
    n = 0 ∨ (0 < width ∧ Fits width n.toInt) := by
  unfold ofSigned at le
  by_cases zero : n = 0
  · exact .inl zero
  · rw [if_neg zero] at le
    right
    -- Either a width below eight was found, or only the widest one is left.
    cases found : (List.range' 1 7).find? fun width => Fits width n.toInt with
    | none =>
      rw [found] at le
      have least : 8 ≤ width := le
      exact ⟨by omega, (fits_eight n).mono least⟩
    | some least =>
      rw [found] at le
      have holds : Fits least n.toInt := by simpa using List.find?_some found
      have positive := List.mem_range'_1.mp (List.mem_of_find?_eq_some found)
      have bound : least ≤ width := le
      exact ⟨by omega, holds.mono bound⟩

theorem lt_of_ofUnsigned_le {n : UInt64} {width : Nat} (le : ofUnsigned n ≤ width) :
    n.toNat < 256 ^ width := by
  unfold ofUnsigned at le
  cases found : (List.range 8).find? fun width => n.toNat < Nat.pow 256 width with
  | none =>
    rw [found] at le
    have most : n.toNat < 256 ^ 8 := n.toNat_lt
    exact Nat.lt_of_lt_of_le most (Nat.pow_le_pow_right (by decide) le)
  | some least =>
    rw [found] at le
    have holds : n.toNat < 256 ^ least := by simpa using List.find?_some found
    exact Nat.lt_of_lt_of_le holds (Nat.pow_le_pow_right (by decide) le)

theorem ofSigned_le_eight (n : Int64) : ofSigned n ≤ 8 := by
  unfold ofSigned
  split
  · exact Nat.zero_le 8
  · cases found : (List.range' 1 7).find? fun width => Fits width n.toInt with
    | none => exact Nat.le_refl 8
    | some least =>
      have range := List.mem_range'_1.mp (List.mem_of_find?_eq_some found)
      change least ≤ 8
      omega

theorem ofUnsigned_le_eight (n : UInt64) : ofUnsigned n ≤ 8 := by
  unfold ofUnsigned
  cases found : (List.range 8).find? fun width => n.toNat < Nat.pow 256 width with
  | none => exact Nat.le_refl 8
  | some least =>
    have range := List.mem_range.mp (List.mem_of_find?_eq_some found)
    change least ≤ 8
    omega

theorem half_mul_two {width : Nat} (positive : 0 < width) : Nat.pow 2 (8 * width - 1) * 2 = 256 ^ width := by
  have bits : 8 * width - 1 + 1 = 8 * width := by omega
  change 2 ^ (8 * width - 1 + 1) = _
  rw [bits]
  exact Nat.pow_mul 2 8 width

theorem signed_lowest {n : Int64} {width : Nat} (most : width ≤ 8) (le : ofSigned n ≤ width) :
    signed width (n.toUInt64.toNat % 256 ^ width) = n.toInt := by
  have unsigned : Int.bmod n.toUInt64.toNat (2 ^ 64) = n.toInt := by
    rw [← Int64.toNat_toBitVec, ← BitVec.toInt_eq_toNat_bmod]
    rfl
  have divides : 256 ^ width ∣ 2 ^ 64 :=
    Nat.pow_dvd_pow 256 most
  -- Fewer bytes of two's complement keep the residue, and a number that fits is its own residue.
  change Int.bmod _ (256 ^ width) = _
  rw [Int.natCast_emod, Int.emod_bmod, ← Int.bmod_bmod_of_dvd divides, unsigned]
  rcases fits_of_ofSigned_le le with rfl | ⟨positive, low, high⟩
  · exact Int.zero_bmod
  · have double := half_mul_two positive
    exact Int.bmod_eq_of_le_mul_two (by omega) (by omega)

theorem writeUnsigned_emits (n : UInt64) (width : Nat) :
    Write.Emits (writeUnsigned n width) (Bytes.ofNat width n.toNat) :=
  Write.Extends.ite (fun _ => Write.number_emits _ _) fun _ => Write.Extends.throw _

theorem writeSigned_emits (n : Int64) (width : Nat) :
    Write.Emits (writeSigned n width) (Bytes.ofNat width n.toUInt64.toNat) :=
  writeUnsigned_emits _ _

theorem number_lowest (width n : Nat) (rest : Bytes) :
    Read.number width (Bytes.ofNat width n ++ rest) = .ok (n % 256 ^ width) rest := by
  unfold Read.number
  rw [Program.bind_ok (Read.bytes_append (Bytes.length_ofNat width n) rest),
    Bytes.toNat_ofNat_mod]
  rfl

theorem readSigned_ofNat {n : Int64} {width : Nat} (most : width ≤ 8) (le : ofSigned n ≤ width)
    (rest : Bytes) :
    readSigned width (Bytes.ofNat width n.toUInt64.toNat ++ rest) = .ok n rest := by
  unfold readSigned
  rw [if_pos most, Program.bind_ok (number_lowest width _ rest), signed_lowest most le]
  change EStateM.Result.ok (Int64.ofInt n.toInt) rest = _
  rw [Int64.ofInt_toInt]

theorem readUnsigned_ofNat {n : UInt64} {width : Nat} (most : width ≤ 8) (le : ofUnsigned n ≤ width)
    (rest : Bytes) :
    readUnsigned width (Bytes.ofNat width n.toNat ++ rest) = .ok n rest := by
  unfold readUnsigned
  rw [if_pos most, Program.bind_ok (Read.number_ofNat (lt_of_ofUnsigned_le le) rest)]
  change EStateM.Result.ok (UInt64.ofNat n.toNat) rest = _
  rw [UInt64.ofNat_toNat]

end MarketWire.Width
