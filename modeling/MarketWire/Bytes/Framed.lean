import MarketWire.Bytes.Varying

/-! Byte strings behind their length, and lengths that are filled in afterwards.

A slot keeps room for the longest form of a length before the bytes that it counts are written.
Closing the slot writes the shortest form and moves the bytes up to it.
-/

set_option autoImplicit false

namespace MarketWire

/-- How a length is written: as one byte, as a 15-bit number or as a 16-bit number of varying
length. -/
inductive LengthForm where
  | byte
  | bits15
  | bits16
  deriving DecidableEq, Repr

namespace LengthForm

def max : LengthForm → Nat
  | .byte => 0xFF
  | .bits15 => Varying.max15
  | .bits16 => 0xFFFF

/-- The number of bytes that a length of this form takes at most. -/
def reserved : LengthForm → Nat
  | .byte => 1
  | .bits15 => 2
  | .bits16 => 3

/-- The shortest bytes that spell a length. -/
def spell (form : LengthForm) (length : Nat) : Bytes :=
  match form with
  | .byte => [UInt8.ofNat length]
  | .bits15 => Varying.form15 length
  | .bits16 => Varying.form16 length

def read : LengthForm → Read Nat
  | .byte => do return (← Read.byte).toNat
  | .bits15 => Varying.read15
  | .bits16 => Varying.read16

/-- The number of bytes that a length takes, told by its first byte. -/
def width (form : LengthForm) (first : UInt8) : Nat :=
  match form with
  | .byte => 1
  | .bits15 => if first.toNat < 0x80 then 1 else 2
  | .bits16 => if first = Varying.announces2 then 3 else 1

/-- The number of bytes at the front that are a length and the bytes that it counts. -/
def frameSize (form : LengthForm) (bytes : Bytes) : Nat :=
  match bytes, form.read bytes with
  | first :: _, .ok length _ => form.width first + length
  | _, _ => 0

theorem read_nil (form : LengthForm) : form.read [] = .error (.overrun 1 0) [] := by
  cases form <;> rfl

theorem read_eq_ok {form : LengthForm} {first : UInt8} {bytes rest : Bytes} {length : Nat}
    (h : form.read (first :: bytes) = .ok length rest) :
    rest = (first :: bytes).drop (form.width first) := by
  cases form with
  | byte =>
    cases h
    rfl
  | bits15 =>
    simp only [read, Varying.read15, width, bind, EStateM.bind, Read.byte, pure] at h ⊢
    by_cases short : first.toNat < 0x80
    · rw [if_pos short] at h ⊢
      cases h
      rfl
    · rw [if_neg short] at h ⊢
      cases bytes with
      | nil => cases h
      | cons second bytes =>
        cases h
        rfl
  | bits16 =>
    simp only [read, Varying.read16, width, bind, EStateM.bind, Read.byte] at h ⊢
    by_cases long : first = Varying.announces2
    · rw [if_pos long] at h ⊢
      simp only [Read.number, bind, EStateM.bind] at h
      cases taken : Read.bytes 2 bytes with
      | error => rw [taken] at h; cases h
      | ok two left =>
        rw [taken] at h
        cases h
        obtain ⟨rfl, two⟩ := Read.bytes_eq_ok taken
        rw [← List.cons_append, List.drop_left' (by simp [two])]
    · rw [if_neg long] at h ⊢
      cases h
      rfl

end LengthForm

def Read.framed (form : LengthForm) : Read Bytes := do
  Read.bytes (← form.read)

/-- What a frame leaves unread is what stands behind it. -/
theorem Read.framed_eq_ok {form : LengthForm} {bytes payload rest : Bytes}
    (h : Read.framed form bytes = .ok payload rest) : rest = bytes.drop (form.frameSize bytes) := by
  cases bytes with
  | nil =>
    simp only [framed, bind, EStateM.bind, LengthForm.read_nil] at h
    cases h
  | cons first bytes =>
    simp only [framed, bind, EStateM.bind] at h
    cases counted : form.read (first :: bytes) with
    | error => rw [counted] at h; cases h
    | ok length left =>
      rw [counted] at h
      have behind := LengthForm.read_eq_ok counted
      obtain ⟨joined, rfl⟩ := Read.bytes_eq_ok h
      simp only [LengthForm.frameSize, counted]
      rw [← List.drop_drop, ← behind, joined, List.drop_left]

def Write.framed (form : LengthForm) (payload : Bytes) : Write Unit :=
  if payload.length ≤ form.max then
    let length := form.spell payload.length
    do
      Write.ensure (payload.length + length.length)
      Write.bytes length
      Write.bytes payload
  else throw (.lengthOverflow payload.length form.max)

structure LengthSlot where
  start : Nat
  form : LengthForm
  deriving DecidableEq, Repr

namespace LengthSlot

def reserve (form : LengthForm) : Write LengthSlot := do
  return ⟨← Write.reserve form.reserved, form⟩

/-- The number of bytes written after a slot. -/
def payloadLength (slot : LengthSlot) : Write Nat := do
  return (← Write.position) - slot.start - slot.form.reserved

/-- Fill in the length of all that was written after the slot. -/
def close (slot : LengthSlot) : Write Unit := do
  let length ← slot.payloadLength
  if length ≤ slot.form.max then
    let spelled := slot.form.spell length
    Write.patch slot.start spelled
    Write.shiftLeft (slot.start + spelled.length) (slot.form.reserved - spelled.length)
  else throw (.lengthOverflow length slot.form.max)

/-- Drop the slot and all that was written after it. -/
def abandon (slot : LengthSlot) : Write Unit := Write.rewind slot.start

/-- Put the length of what a writer writes in front of it. -/
def around (form : LengthForm) (writer : Write Unit) : Write Unit := do
  let slot ← reserve form
  writer
  slot.close

end LengthSlot

end MarketWire
