import MarketWire.Proofs.Delimited
import MarketWire.Proofs.WholeWrites

/-! Forms that tell by themselves where they end.

A number of varying length and a byte string behind its length are written as a whole or not at all. Their readers find
them in front of anything and take nothing else, and of a part of the form they tell that bytes are missing. What no
form has room for is refused.
-/

set_option autoImplicit false

namespace MarketWire

inductive VaryingForm where
  | bits15
  | bits16
  | bits30
  | bits32
  deriving DecidableEq, Repr

namespace VaryingForm

def greatest : VaryingForm → Nat
  | .bits15 => Varying.max15
  | .bits16 => 0xFFFF
  | .bits30 => Varying.max30
  | .bits32 => 0xFFFFFFFF

/-- The form keeps bits of the first byte for the length, so it has no room for all numbers of its bytes. -/
def keepsBits : VaryingForm → Bool
  | .bits15 | .bits30 => true
  | .bits16 | .bits32 => false

def spell : VaryingForm → Nat → Bytes
  | .bits15 => Varying.form15
  | .bits16 => Varying.form16
  | .bits30 => Varying.form30
  | .bits32 => Varying.form32

def write : VaryingForm → Nat → Write Unit
  | .bits15 => Varying.write15
  | .bits16 => Varying.write16
  | .bits30 => Varying.write30
  | .bits32 => Varying.write32

def read : VaryingForm → Read Nat
  | .bits15 => Varying.read15
  | .bits16 => Varying.read16
  | .bits30 => Varying.read30
  | .bits32 => Varying.read32

variable {form : VaryingForm} {n : Nat}

theorem read_delimited (form : VaryingForm) : form.read.Delimited := by
  cases form with
  | bits15 => exact Varying.read15_delimited
  | bits16 => exact Varying.read16_delimited
  | bits30 => exact Varying.read30_delimited
  | bits32 => exact Varying.read32_delimited

theorem read_spell (fits : n ≤ form.greatest) (rest : Bytes) :
    form.read (form.spell n ++ rest) = .ok n rest := by
  cases form with
  | bits15 => exact Varying.read15_form15 fits rest
  | bits16 => exact Varying.read16_form16 fits rest
  | bits30 => exact Varying.read30_form30 fits rest
  | bits32 => exact Varying.read32_form32 fits rest

theorem write_appends (fits : n ≤ form.greatest) : (form.write n).Appends (form.spell n) := by
  cases form with
  | bits15 =>
    have written : write .bits15 n = Write.bytes (Varying.form15 n) := if_pos fits
    rw [written]
    exact Write.bytes_appends _
  | bits30 =>
    have written : write .bits30 n = Write.bytes (Varying.form30 n) := if_pos fits
    rw [written]
    exact Write.bytes_appends _
  | bits16 | bits32 => exact Write.bytes_appends _

theorem write_refuses (keeps : form.keepsBits) (above : form.greatest < n) (output : Output) :
    ∃ reason, form.write n output = .error (.invalidValue reason) output := by
  cases form with
  | bits15 | bits30 => exact ⟨_, congrFun (if_neg (Nat.not_le.mpr above)) output⟩
  | bits16 | bits32 => cases keeps

end VaryingForm

theorem Write.framed_refuses {form : LengthForm} {payload : Bytes} (long : form.max < payload.length)
    (output : Output) :
    Write.framed form payload output = .error (.lengthOverflow payload.length form.max) output := by
  unfold Write.framed
  rw [if_neg (Nat.not_le.mpr long)]
  rfl

/-- A number in the range of its form, and a byte string that is no longer than its length can tell, are written as a
whole or not at all, and what is written is delimited. Greater numbers and longer byte strings are refused. -/
theorem forms_delimit :
    (∀ (form : VaryingForm) (n : Nat),
      (n ≤ form.greatest → (form.write n).Appends (form.spell n) ∧ form.read.Delimits n (form.spell n)) ∧
        (form.keepsBits → form.greatest < n → ∀ output, ∃ reason,
          form.write n output = .error (.invalidValue reason) output)) ∧
    ∀ (form : LengthForm) (payload : Bytes),
      (payload.length ≤ form.max → (Write.framed form payload).Appends (form.frame payload) ∧
        (Read.framed form).Delimits payload (form.frame payload)) ∧
      (form.max < payload.length → ∀ output,
        Write.framed form payload output = .error (.lengthOverflow payload.length form.max) output) := by
  constructor
  · intro form n
    refine ⟨fun fits => ?_, VaryingForm.write_refuses⟩
    exact ⟨VaryingForm.write_appends fits, form.read_delimited.of_front (VaryingForm.read_spell fits)⟩
  · intro form payload
    refine ⟨fun fits => ?_, Write.framed_refuses⟩
    exact ⟨Write.framed_appends fits, (Read.framed_delimited form).of_front (Read.framed_frame fits)⟩

/-- The number 254 takes three bytes of the 16-bit form, 4194304 four bytes of the 30-bit form, and 128 bytes have a
length of two bytes; 32768 is no number of 15 bits, and no byte counts 256 bytes. -/
theorem forms_delimit_boundaries :
    (∃ after, Varying.write30 4194304 (.empty 4) = .ok () after ∧ after.toList = [0xC0, 0x40, 0, 0]) ∧
      Varying.read16.Delimits 254 [0xFE, 0, 0xFE] ∧
      (∃ reason, Varying.write15 0x8000 (.empty 4) = .error (.invalidValue reason) (.empty 4)) ∧
      (Read.framed .bits15).Delimits (List.replicate 128 7) (0x80 :: 0x80 :: List.replicate 128 7) ∧
      Write.framed .byte (List.replicate 256 7) (.empty 300) = .error (.lengthOverflow 256 255) (.empty 300) := by
  obtain ⟨numbers, strings⟩ := forms_delimit
  have many (count : Nat) : (List.replicate count (7 : UInt8)).length = count := List.length_replicate
  refine ⟨?_, ((numbers .bits16 254).1 (by decide)).2, (numbers .bits15 0x8000).2 rfl (by decide) _, ?_, ?_⟩
  · exact ((numbers .bits30 4194304).1 (by decide)).1.whole (.empty 4) (by decide)
  · have framed := ((strings .bits15 (List.replicate 128 7)).1 (by rw [many]; decide)).2
    rw [LengthForm.frame, many] at framed
    exact framed
  · have refused := (strings .byte (List.replicate 256 7)).2 (by rw [many]; decide) (.empty 300)
    rw [many] at refused
    exact refused

end MarketWire
