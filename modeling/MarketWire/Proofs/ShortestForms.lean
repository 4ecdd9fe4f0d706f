import Mathlib.Data.List.Induction
import MarketWire.Proofs.SelfDelimiting

/-! Numbers of varying length, written again.

Readers take more byte strings than writers make: numbers with leading zeros, and in the 16-bit form the first byte
255, which is out of use there and read as itself. What was read can be written, and no form is longer than the bytes
that the number was read from, that one byte aside. The bytes come back if there were no fewer for the number.
-/

set_option autoImplicit false

namespace MarketWire

namespace Bytes

theorem toNat_cons (first : UInt8) (rest : Bytes) :
    toNat (first :: rest) = first.toNat * 256 ^ rest.length + toNat rest := by
  induction rest using List.reverseRecOn with
  | nil => simp [toNat]
  | append_singleton rest last ih =>
    rw [← List.cons_append, toNat_append_singleton, toNat_append_singleton, ih, List.length_append,
      List.length_singleton, Nat.pow_succ, Nat.add_mul, Nat.mul_assoc, Nat.add_assoc]

theorem ofNat_toNat (bytes : Bytes) : ofNat bytes.length (toNat bytes) = bytes := by
  induction bytes using List.reverseRecOn with
  | nil => rfl
  | append_singleton bytes last ih =>
    have small := last.toNat_lt
    have upper : (toNat bytes * 256 + last.toNat) / 256 = toNat bytes := by omega
    have lower : UInt8.ofNat (toNat bytes * 256 + last.toNat) = last := by
      apply UInt8.toNat_inj.mp
      rw [UInt8.toNat_ofNat']
      omega
    rw [List.length_append, List.length_singleton, ofNat, toNat_append_singleton, upper, lower, ih]

theorem toNat_lt (bytes : Bytes) : toNat bytes < 256 ^ bytes.length := by
  rw [← ofNat_toNat bytes, length_ofNat, toNat_ofNat_mod]
  exact Nat.mod_lt _ (Nat.pow_pos (by decide))

/-- Other bytes of no greater length, and the same ones if they are as many. -/
def Shortens (bytes spelled : Bytes) : Prop :=
  spelled.length ≤ bytes.length ∧ (bytes.length ≤ spelled.length → spelled = bytes)

theorem Shortens.of_eq {bytes spelled : Bytes} (same : spelled = bytes) : Shortens bytes spelled :=
  ⟨Nat.le_of_eq (congrArg List.length same), fun _ => same⟩

theorem Shortens.of_lt {bytes spelled : Bytes} (shorter : spelled.length < bytes.length) : Shortens bytes spelled :=
  ⟨Nat.le_of_lt shorter, fun longer => absurd longer (Nat.not_le.mpr shorter)⟩

end Bytes

namespace Read

theorem byte_eq_ok {bytes rest : Bytes} {first : UInt8} (h : byte bytes = .ok first rest) : bytes = first :: rest := by
  cases bytes with
  | nil => cases h
  | cons => cases h; rfl

theorem number_eq_ok {width n : Nat} {bytes rest : Bytes} (h : number width bytes = .ok n rest) :
    ∃ taken, bytes = taken ++ rest ∧ taken.length = width ∧ taken.toNat = n := by
  obtain ⟨taken, _, found, h⟩ := Program.bind_eq_ok h
  obtain ⟨joined, length⟩ := bytes_eq_ok found
  cases h
  exact ⟨taken, joined, length, rfl⟩

end Read

namespace Varying

open Bytes (Shortens)

/-! ## Forms that keep bits -/

theorem shortens_form15 {n : Nat} {bytes rest : Bytes} (h : read15 bytes = .ok n rest) :
    ∃ taken, bytes = taken ++ rest ∧ n ≤ max15 ∧ Shortens taken (form15 n) := by
  have most := read15_le h
  obtain ⟨first, left, one, found⟩ := Program.bind_eq_ok h
  have joined := Read.byte_eq_ok one
  dsimp only at found
  split at found
  case isTrue direct =>
    cases found
    refine ⟨[first], joined, most, .of_eq ?_⟩
    rw [form15, if_pos direct, UInt8.ofNat_toNat]
  case isFalse marked =>
    obtain ⟨second, _, two, found⟩ := Program.bind_eq_ok found
    rw [Read.byte_eq_ok two] at joined
    cases found
    refine ⟨[first, second], joined, most, ?_⟩
    by_cases short : (first.toNat - 0x80) * 256 + second.toNat < 0x80
    · refine .of_lt ?_
      rw [form15, if_pos short]
      exact Nat.one_lt_two
    · have value : (first.toNat - 0x80) * 256 + second.toNat + 0x8000 = Bytes.toNat [first, second] := by
        simp only [Bytes.toNat, List.foldl_cons, List.foldl_nil]
        omega
      refine .of_eq ?_
      rw [form15, if_neg short, value]
      exact Bytes.ofNat_toNat [first, second]

def mark30 : Nat → Nat
  | 0 => 0
  | 1 => 0x80
  | 2 => 0x40
  | _ => 0xC0

theorem further30_mark : ∀ first < 256, further30 first ≤ 3 ∧ first % 0x40 + mark30 (further30 first) = first := by
  decide +kernel

theorem form30_marked (n : Nat) : ∃ further,
    form30 n = Bytes.ofNat (further + 1) (n + mark30 further * 256 ^ further) ∧
      ∀ more, n < 0x40 * 256 ^ more → further ≤ more := by
  have above {further more : Nat} (large : 0x40 * 256 ^ further ≤ n) (room : n < 0x40 * 256 ^ more) :
      further + 1 ≤ more := by
    have wider : 256 ^ further < 256 ^ more := by omega
    exact (Nat.pow_lt_pow_iff_right (by decide)).mp wider
  unfold form30
  by_cases small : n < 0x40
  · rw [if_pos small]
    exact ⟨0, rfl, fun more _ => Nat.zero_le more⟩
  rw [if_neg small]
  by_cases one : n < 0x4000
  · rw [if_pos one]
    exact ⟨1, rfl, fun _ => @above 0 _ (by omega)⟩
  rw [if_neg one]
  by_cases two : n < 0x400000
  · rw [if_pos two]
    exact ⟨2, rfl, fun _ => @above 1 _ (by omega)⟩
  · rw [if_neg two]
    exact ⟨3, rfl, fun _ => @above 2 _ (by omega)⟩

theorem shortens_form30 {n : Nat} {bytes rest : Bytes} (h : read30 bytes = .ok n rest) :
    ∃ taken, bytes = taken ++ rest ∧ n ≤ max30 ∧ Shortens taken (form30 n) := by
  obtain ⟨first, left, one, found⟩ := Program.bind_eq_ok h
  obtain ⟨more, _, others, found⟩ := Program.bind_eq_ok found
  obtain ⟨joined, announced⟩ := Read.bytes_eq_ok others
  obtain ⟨few, marked⟩ := further30_mark _ first.toNat_lt
  have below := more.toNat_lt
  rw [announced] at below
  cases found
  generalize further30 first.toNat = further at announced few marked below ⊢
  have top : first.toNat % 0x40 < 0x40 := Nat.mod_lt _ (by decide)
  generalize first.toNat % 0x40 = high at marked top ⊢
  -- The number is below its top, raised by one, times the weight of the top.
  have room : high * 256 ^ further + more.toNat < 0x40 * 256 ^ further := by
    have raised : (high + 1) * 256 ^ further ≤ 0x40 * 256 ^ further := Nat.mul_le_mul_right _ top
    rw [Nat.add_mul, Nat.one_mul] at raised
    omega
  refine ⟨first :: more, ?_, ?_, ?_⟩
  · rw [Read.byte_eq_ok one, joined]
    rfl
  · have widest : 256 ^ further ≤ 256 ^ 3 := Nat.pow_le_pow_right (by decide) few
    change high * 256 ^ further + more.toNat ≤ max30
    unfold max30
    omega
  · obtain ⟨width, form, least⟩ := form30_marked (high * 256 ^ further + more.toNat)
    change Shortens (first :: more) (form30 (high * 256 ^ further + more.toNat))
    have fewest := least further room
    unfold Shortens
    rw [form, Bytes.length_ofNat, List.length_cons, announced]
    refine ⟨Nat.succ_le_succ fewest, fun many => ?_⟩
    obtain rfl : width = further := Nat.le_antisymm fewest (Nat.le_of_succ_le_succ many)
    have value : high * 256 ^ width + more.toNat + mark30 width * 256 ^ width = Bytes.toNat (first :: more) := by
      rw [Bytes.toNat_cons, announced, ← marked, Nat.add_mul, Nat.add_right_comm]
    have whole := Bytes.ofNat_toNat (first :: more)
    rw [List.length_cons, announced] at whole
    rw [value, whole]

/-! ## Forms with announced lengths -/

theorem toNat_le_maxDirect {first : UInt8} (two : first ≠ announces2) (four : first ≠ announces4) :
    first.toNat ≤ maxDirect := by
  have small := first.toNat_lt
  have notTwo : first.toNat ≠ 0xFE := fun same => two (UInt8.toNat_inj.mp same)
  have notFour : first.toNat ≠ 0xFF := fun same => four (UInt8.toNat_inj.mp same)
  unfold maxDirect
  omega

theorem announced_eq (announces : UInt8) {taken : Bytes} {width : Nat} (length : taken.length = width) :
    announces :: Bytes.ofNat width taken.toNat = announces :: taken := by
  rw [← length, Bytes.ofNat_toNat]

theorem shortens_form16 {n : Nat} {bytes rest : Bytes} (h : read16 bytes = .ok n rest) :
    ∃ taken, bytes = taken ++ rest ∧ n ≤ 0xFFFF ∧
      (taken = [announces4] ∧ n = 0xFF ∨ taken ≠ [announces4] ∧ Shortens taken (form16 n)) := by
  obtain ⟨first, left, one, found⟩ := Program.bind_eq_ok h
  have joined := Read.byte_eq_ok one
  split at found
  case isTrue two =>
    obtain ⟨taken, behind, length, rfl⟩ := Read.number_eq_ok found
    have most := taken.toNat_lt
    rw [length] at most
    have other : first :: taken ≠ [announces4] := fun same => absurd (two.symm.trans (List.cons.inj same).1) (by decide)
    refine ⟨first :: taken, by rw [joined, behind]; rfl, Nat.le_of_lt_succ most, .inr ⟨other, ?_⟩⟩
    unfold form16
    split_ifs
    · exact .of_lt (by simp [length])
    · exact .of_eq (two ▸ announced_eq first length)
  case isFalse two =>
    cases found
    refine ⟨[first], joined, by have small := first.toNat_lt; omega, ?_⟩
    by_cases four : first = announces4
    · exact .inl ⟨by rw [four], by rw [four]; rfl⟩
    · refine .inr ⟨fun same => four (List.cons.inj same).1, .of_eq ?_⟩
      rw [form16, if_pos (toNat_le_maxDirect two four), UInt8.ofNat_toNat]

theorem shortens_form32 {n : Nat} {bytes rest : Bytes} (h : read32 bytes = .ok n rest) :
    ∃ taken, bytes = taken ++ rest ∧ n ≤ 0xFFFFFFFF ∧ Shortens taken (form32 n) := by
  obtain ⟨first, left, one, found⟩ := Program.bind_eq_ok h
  have joined := Read.byte_eq_ok one
  split at found
  case isTrue two =>
    obtain ⟨taken, behind, length, rfl⟩ := Read.number_eq_ok found
    have most := taken.toNat_lt
    rw [length] at most
    refine ⟨first :: taken, by rw [joined, behind]; rfl, by omega, ?_⟩
    unfold form32
    split_ifs
    · exact .of_lt (by simp [length])
    · exact .of_eq (two ▸ announced_eq first length)
    · omega
  split at found
  case isTrue two four =>
    obtain ⟨taken, behind, length, rfl⟩ := Read.number_eq_ok found
    have most := taken.toNat_lt
    rw [length] at most
    refine ⟨first :: taken, by rw [joined, behind]; rfl, Nat.le_of_lt_succ most, ?_⟩
    unfold form32
    split_ifs
    · exact .of_lt (by simp [length])
    · exact .of_lt (by simp [length])
    · exact .of_eq (four ▸ announced_eq first length)
  case isFalse two four =>
    cases found
    refine ⟨[first], joined, by have small := first.toNat_lt; omega, .of_eq ?_⟩
    rw [form32, if_pos (toNat_le_maxDirect two four), UInt8.ofNat_toNat]

end Varying

/-! ## Written again -/

namespace VaryingForm

/-- Bytes that a form has no use for: its readers take them, its writers never make them. -/
def Unused (form : VaryingForm) (bytes : Bytes) : Prop := form = .bits16 ∧ bytes = [Varying.announces4]

def IsMinimal (form : VaryingForm) (n : Nat) (bytes : Bytes) : Prop :=
  ∀ other, form.read other = .ok n [] → ¬ form.Unused other → bytes.length ≤ other.length

variable {form : VaryingForm} {n : Nat} {bytes rest : Bytes}

/-- What is read can be written, and in no more bytes unless they had no use. -/
theorem shortens_spell (found : form.read bytes = .ok n rest) :
    ∃ taken, bytes = taken ++ rest ∧ n ≤ form.greatest ∧
      (form.Unused taken ∧ n = 0xFF ∨ ¬ form.Unused taken ∧ taken.Shortens (form.spell n)) := by
  cases form with
  | bits15 =>
    obtain ⟨taken, joined, most, shortens⟩ := Varying.shortens_form15 found
    exact ⟨taken, joined, most, .inr ⟨nofun, shortens⟩⟩
  | bits30 =>
    obtain ⟨taken, joined, most, shortens⟩ := Varying.shortens_form30 found
    exact ⟨taken, joined, most, .inr ⟨nofun, shortens⟩⟩
  | bits32 =>
    obtain ⟨taken, joined, most, shortens⟩ := Varying.shortens_form32 found
    exact ⟨taken, joined, most, .inr ⟨nofun, shortens⟩⟩
  | bits16 =>
    obtain ⟨taken, joined, most, ⟨unused, value⟩ | ⟨other, shortens⟩⟩ := Varying.shortens_form16 found
    · exact ⟨taken, joined, most, .inl ⟨⟨rfl, unused⟩, value⟩⟩
    · exact ⟨taken, joined, most, .inr ⟨fun unused => other unused.2, shortens⟩⟩

theorem not_unused_spell (form : VaryingForm) (n : Nat) : ¬ form.Unused (form.spell n) := by
  rintro ⟨rfl, same⟩
  change Varying.form16 n = [Varying.announces4] at same
  unfold Varying.form16 at same
  split_ifs at same with direct
  · have byte : (UInt8.ofNat n).toNat = 0xFF := congrArg UInt8.toNat (List.cons.inj same).1
    unfold Varying.maxDirect at direct
    rw [UInt8.toNat_ofNat'] at byte
    omega
  · exact absurd (List.cons.inj same).1 (by decide)

/-- Every number that is read can be written. Written again it takes no more bytes than it was read from, exactly unless
they had no use, and it takes the same bytes exactly if they were minimal. -/
theorem written_again (found : form.read bytes = .ok n rest) :
    ∃ taken, bytes = taken ++ rest ∧ (form.write n).Appends (form.spell n) ∧
      ((form.spell n).length ≤ taken.length ↔ ¬ form.Unused taken) ∧
      (¬ form.Unused taken → (form.spell n = taken ↔ form.IsMinimal n taken)) := by
  obtain ⟨taken, joined, fits, ⟨unused, value⟩ | ⟨used, le, same⟩⟩ := shortens_spell found
  · refine ⟨taken, joined, write_appends fits, ?_, fun used => absurd unused used⟩
    obtain ⟨rfl, rfl⟩ := unused
    subst value
    exact iff_of_false (by decide) (not_not_intro ⟨rfl, rfl⟩)
  · refine ⟨taken, joined, write_appends fits, iff_of_true le used, fun _ => ⟨?_, fun minimal => same ?_⟩⟩
    · rintro rfl other otherFound otherUsed
      obtain ⟨otherTaken, whole, -, ⟨unused, -⟩ | ⟨-, otherLe, -⟩⟩ := shortens_spell otherFound
      all_goals rw [List.append_nil] at whole
      · exact absurd (whole ▸ unused) otherUsed
      · exact whole ▸ otherLe
    · have again := read_spell fits []
      rw [List.append_nil] at again
      exact minimal _ again (form.not_unused_spell n)

/-- Five is read from three bytes of the 30-bit form and written as one. -/
theorem written_again_padded :
    VaryingForm.read .bits30 [0x40, 0, 5, 9] = .ok 5 [9] ∧ (VaryingForm.write .bits30 5).Appends [5] ∧
      ¬ VaryingForm.IsMinimal .bits30 5 [0x40, 0, 5] := by
  have found : VaryingForm.read .bits30 [0x40, 0, 5, 9] = .ok 5 [9] := rfl
  obtain ⟨taken, joined, appends, -, same⟩ := written_again found
  obtain rfl : [0x40, 0, 5] = taken := List.append_cancel_right joined
  exact ⟨found, appends, fun minimal => absurd ((same nofun).mpr minimal) (by decide)⟩

/-- Not every number is written, where there is room for any, in so few bytes as it was read from: 255 is read from one
byte of the 16-bit form and takes three. -/
theorem unused_byte_grows : ¬ ∀ (form : VaryingForm) (n : Nat) (taken rest : Bytes) (output : Output),
    form.read (taken ++ rest) = .ok n rest → 5 ≤ output.room →
      ∃ after added, form.write n output = .ok () after ∧ after.toList = output.toList ++ added ∧
        added.length ≤ taken.length := by
  intro all
  obtain ⟨after, added, written, bytes, few⟩ := all .bits16 255 [0xFF] [] (.empty 5) rfl (by decide)
  obtain ⟨_, again, three⟩ := (@write_appends .bits16 255 (by decide)).whole (.empty 5) (by decide)
  cases written.symm.trans again
  rw [List.append_cancel_left (bytes.symm.trans three)] at few
  exact absurd few (by decide)

end VaryingForm

end MarketWire
