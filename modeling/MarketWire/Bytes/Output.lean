import MarketWire.Bytes
import MarketWire.Error

/-! A byte string of bounded length that is written at its end.

Each writer either appends what it promises or refuses and leaves the output as it was. Written
bytes may be overwritten in place, cut off at the end or removed from the middle; a byte that was
cut off is gone.
-/

set_option autoImplicit false

namespace MarketWire

theorem size_append (written : Array UInt8) (added : Bytes) :
    (written ++ added).size = written.size + added.length := by
  rw [← Array.length_toList, Array.toList_appendList, List.length_append, Array.length_toList]

/-- The bytes written so far and the number of bytes that there is room for. -/
structure Output where
  written : Array UInt8
  capacity : Nat
  size_le : written.size ≤ capacity

namespace Output

def empty (capacity : Nat) : Output := ⟨#[], capacity, Nat.zero_le capacity⟩

def position (output : Output) : Nat := output.written.size

def room (output : Output) : Nat := output.capacity - output.written.size

def toList (output : Output) : Bytes := output.written.toList

def cut (output : Output) (position : Nat) : Output :=
  match output with
  | ⟨written, capacity, size_le⟩ =>
    ⟨written.shrink position, capacity, by simp only [Array.size_shrink]; omega⟩

end Output

/-- A writer to an output. -/
abbrev Write := EStateM EncodeError Output

namespace Write

def position : Write Nat := fun output => .ok output.position output

def room : Write Nat := fun output => .ok output.room output

def ensure (count : Nat) : Write Unit := fun output =>
  if count ≤ output.room then .ok () output
  else .error (.bufferTooSmall count output.room) output

def bytes (added : Bytes) : Write Unit := fun output =>
  match output with
  | ⟨written, capacity, size_le⟩ =>
    if fits : added.length ≤ capacity - written.size then
      .ok () ⟨written ++ added, capacity, by rw [size_append]; omega⟩
    else .error (.bufferTooSmall added.length (capacity - written.size)) ⟨written, capacity, size_le⟩

def byte (value : UInt8) : Write Unit := bytes [value]

def number (width n : Nat) : Write Unit := bytes (Bytes.ofNat width n)

def uint16 (value : UInt16) : Write Unit := number 2 value.toNat

def int16 (value : Int16) : Write Unit := uint16 value.toUInt16

def uint32 (value : UInt32) : Write Unit := number 4 value.toNat

def uint64 (value : UInt64) : Write Unit := number 8 value.toNat

/-- Append zeros and answer the position where they start. -/
def reserve (count : Nat) : Write Nat := do
  let start ← position
  ensure count
  bytes (List.replicate count 0)
  return start

/-- Overwrite one byte after another, starting at a position. -/
def overwrite (written : Array UInt8) (start : Nat) : Bytes → Array UInt8
  | [] => written
  | byte :: rest => overwrite (written.setIfInBounds start byte) (start + 1) rest

@[simp] theorem size_overwrite (written : Array UInt8) (start : Nat) (replacement : Bytes) :
    (overwrite written start replacement).size = written.size := by
  induction replacement generalizing written start with
  | nil => rfl
  | cons byte rest ih => simp [overwrite, ih]

def patch (start : Nat) (replacement : Bytes) : Write Unit := fun output =>
  match output with
  | ⟨written, capacity, size_le⟩ =>
    if start + replacement.length ≤ written.size then
      .ok () ⟨overwrite written start replacement, capacity, by simpa using size_le⟩
    else .error (.invalidState "patch outside written region") ⟨written, capacity, size_le⟩

def patchNumber (start width n : Nat) : Write Unit := patch start (Bytes.ofNat width n)

def rewind (position : Nat) : Write Unit := fun output => .ok () (output.cut position)

/-- Remove the bytes from a position on, as many as told, and close the gap. -/
def shiftLeft (start count : Nat) : Write Unit := fun output =>
  match output with
  | ⟨written, capacity, size_le⟩ =>
    if inside : start + count ≤ written.size then
      let moved := written.extract (start + count) written.size
      .ok () ⟨written.shrink start ++ moved, capacity, by
        simp only [moved, Array.size_append, Array.size_shrink, Array.size_extract]
        omega⟩
    else .error (.invalidState "shift outside written region") ⟨written, capacity, size_le⟩

/-- Go back to a position if a writer fails. -/
def atomicFrom {α : Type} (start : Nat) (writer : Write α) : Write α := fun output =>
  match writer output with
  | .ok value output => .ok value output
  | .error error output => .error error (output.cut start)

/-- Undo what a writer wrote if it fails. -/
def atomic {α : Type} (writer : Write α) : Write α := fun output =>
  atomicFrom output.position writer output

def each {α : Type} (writer : α → Write Unit) : List α → Write Unit
  | [] => pure ()
  | value :: rest => do
    writer value
    each writer rest

/-- Run a writer on an output of its own and answer what it wrote. -/
def toBytes (capacity : Nat) (writer : Write Unit) : Except EncodeError Bytes :=
  match writer (.empty capacity) with
  | .ok _ output => .ok output.toList
  | .error error _ => .error error

end Write

end MarketWire
