import MarketWire.Proofs.WholeWrites

/-! Writing to a buffer of fixed size.

What is written stands at the front of a buffer, and behind its position there may stand anything: what was there
before, or what was cut off or moved. Nothing of it is ever seen again, so that a buffer answers each call as the list
of the bytes up to its position does.
-/

set_option autoImplicit false

namespace MarketWire

structure Seen where
  written : Bytes
  position : Nat
  capacity : Nat
  deriving DecidableEq

/-! ## Words -/

inductive Word where
  | uint8 (n : UInt8)
  | uint16 (n : UInt16)
  | int16 (n : Int16)
  | uint32 (n : UInt32)
  | uint64 (n : UInt64)
  deriving DecidableEq

namespace Word

def width : Word → Nat
  | uint8 _ => 1
  | uint16 _ | int16 _ => 2
  | uint32 _ => 4
  | uint64 _ => 8

def toNat : Word → Nat
  | uint8 n => n.toNat
  | uint16 n => n.toNat
  | int16 n => n.toUInt16.toNat
  | uint32 n => n.toNat
  | uint64 n => n.toNat

def write : Word → Write Unit
  | uint8 n => Write.byte n
  | uint16 n => Write.uint16 n
  | int16 n => Write.int16 n
  | uint32 n => Write.uint32 n
  | uint64 n => Write.uint64 n

def bytes (word : Word) : Bytes :=
  (List.range word.width).reverse.map fun place => .ofNat (word.toNat / 256 ^ place)

theorem digits_eq (width n : Nat) :
    ((List.range width).reverse.map fun place => UInt8.ofNat (n / 256 ^ place)) = Bytes.ofNat width n := by
  induction width with
  | zero => rfl
  | succ width ih =>
    rw [List.range_succ, List.reverse_append, List.reverse_singleton, List.singleton_append, List.map_cons, ih,
      Bytes.ofNat_succ_eq_cons]

theorem write_eq (word : Word) : word.write = Write.bytes word.bytes := by
  cases word with
  | uint8 n =>
    have digit : bytes (.uint8 n) = [n] := by
      rw [bytes, digits_eq]
      exact congrArg (fun byte => [byte]) UInt8.ofNat_toNat
    rw [digit]
    rfl
  | uint16 n | int16 n | uint32 n | uint64 n => exact congrArg Write.bytes (digits_eq _ _).symm

theorem patchNumber_eq (word : Word) (start : Nat) :
    Write.patchNumber start word.width word.toNat = Write.patch start word.bytes :=
  congrArg (Write.patch start) (digits_eq _ _).symm

end Word

/-! ## Calls -/

/-- What a caller can ask of a place to write to. -/
inductive BufferCall where
  | ensure (count : Nat)
  | append (added : Bytes)
  | appendWord (number : Word)
  | reserve (count : Nat)
  | patch (start : Nat) (replacement : Bytes)
  | patchWord (start : Nat) (number : Word)
  | rewind (position : Nat)
  | shiftLeft (start count : Nat)
  deriving DecidableEq

def BufferCall.onOutput : BufferCall → Write (Option Nat)
  | ensure count => (fun _ => none) <$> Write.ensure count
  | append added => (fun _ => none) <$> Write.bytes added
  | appendWord number => (fun _ => none) <$> number.write
  | reserve count => some <$> Write.reserve count
  | patch start replacement => (fun _ => none) <$> Write.patch start replacement
  | patchWord start number => (fun _ => none) <$> Write.patchNumber start number.width number.toNat
  | rewind position => (fun _ => none) <$> Write.rewind position
  | shiftLeft start count => (fun _ => none) <$> Write.shiftLeft start count

def Output.seen (output : Output) : Seen := ⟨output.toList, output.position, output.capacity⟩

/-! ## Byte lists of bounded length -/

/-- A change of a byte list that may grow up to a capacity. -/
abbrev Edit := EStateM EncodeError Bytes

namespace Edit

section
variable (capacity : Nat)

def ensure (count : Nat) : Edit Unit := fun written =>
  if written.length + count ≤ capacity then .ok () written
  else .error (.bufferTooSmall count (capacity - written.length)) written

def append (added : Bytes) : Edit Unit := fun written =>
  if written.length + added.length ≤ capacity then .ok () (written ++ added)
  else .error (.bufferTooSmall added.length (capacity - written.length)) written

def reserve (count : Nat) : Edit Nat := fun written =>
  if written.length + count ≤ capacity then .ok written.length (written ++ List.replicate count 0)
  else .error (.bufferTooSmall count (capacity - written.length)) written

end

def patch (start : Nat) (replacement : Bytes) : Edit Unit := fun written =>
  if start + replacement.length ≤ written.length then
    .ok () (written.take start ++ replacement ++ written.drop (start + replacement.length))
  else .error (.invalidState "patch outside written region") written

def rewind (position : Nat) : Edit Unit := fun written => .ok () (written.take position)

def shiftLeft (start count : Nat) : Edit Unit := fun written =>
  if start + count ≤ written.length then .ok () (written.take start ++ written.drop (start + count))
  else .error (.invalidState "shift outside written region") written

end Edit

def BufferCall.onBytes (capacity : Nat) : BufferCall → Edit (Option Nat)
  | ensure count => (fun _ => none) <$> Edit.ensure capacity count
  | append added => (fun _ => none) <$> Edit.append capacity added
  | appendWord number => (fun _ => none) <$> Edit.append capacity number.bytes
  | reserve count => some <$> Edit.reserve capacity count
  | patch start replacement => (fun _ => none) <$> Edit.patch start replacement
  | patchWord start number => (fun _ => none) <$> Edit.patch start number.bytes
  | rewind position => (fun _ => none) <$> Edit.rewind position
  | shiftLeft start count => (fun _ => none) <$> Edit.shiftLeft start count

/-! ## Buffers -/

/-- A number of cells, of which those before a position are written. -/
structure Buffer where
  cells : Array UInt8
  position : Nat

def sumInWord? (first second : Nat) : Option Nat :=
  if first + second < USize.size then some (first + second) else none

namespace Buffer

def room (buffer : Buffer) : Nat := buffer.cells.size - buffer.position

def written (buffer : Buffer) : Bytes := buffer.cells.toList.take buffer.position

def seen (buffer : Buffer) : Seen := ⟨buffer.written, buffer.position, buffer.cells.size⟩

def ensure (count : Nat) : EStateM EncodeError Buffer Unit := fun buffer =>
  if buffer.room < count then .error (.bufferTooSmall count buffer.room) buffer else .ok () buffer

def advance (added : Bytes) (buffer : Buffer) : Buffer :=
  ⟨Write.overwrite buffer.cells buffer.position added, buffer.position + added.length⟩

def append (added : Bytes) : EStateM EncodeError Buffer Unit := do
  ensure added.length
  modify (advance added)

def reserve (count : Nat) : EStateM EncodeError Buffer Nat := do
  ensure count
  let start := (← get).position
  modify (advance (List.replicate count 0))
  return start

def patch (start : Nat) (replacement : Bytes) : EStateM EncodeError Buffer Unit := fun buffer =>
  match (sumInWord? start replacement.length).filter (· ≤ buffer.position) with
  | some _ => .ok () { buffer with cells := Write.overwrite buffer.cells start replacement }
  | none => .error (.invalidState "patch outside written region") buffer

def rewind (position : Nat) : EStateM EncodeError Buffer Unit := fun buffer =>
  .ok () (if position < buffer.position then { buffer with position } else buffer)

/-- Move the cells behind the gap to where it starts. The cells that were moved keep their bytes too, as far as no
others take their places. -/
def shiftLeft (start count : Nat) : EStateM EncodeError Buffer Unit := fun buffer =>
  match (sumInWord? start count).filter (· ≤ buffer.position) with
  | some source =>
    let moved := (buffer.cells.extract source buffer.position).toList
    .ok () ⟨Write.overwrite buffer.cells start moved, buffer.position - count⟩
  | none => .error (.invalidState "shift outside written region") buffer

end Buffer

def BufferCall.onBuffer : BufferCall → EStateM EncodeError Buffer (Option Nat)
  | ensure count => (fun _ => none) <$> Buffer.ensure count
  | append added => (fun _ => none) <$> Buffer.append added
  | appendWord number => (fun _ => none) <$> Buffer.append number.bytes
  | reserve count => some <$> Buffer.reserve count
  | patch start replacement => (fun _ => none) <$> Buffer.patch start replacement
  | patchWord start number => (fun _ => none) <$> Buffer.patch start number.bytes
  | rewind position => (fun _ => none) <$> Buffer.rewind position
  | shiftLeft start count => (fun _ => none) <$> Buffer.shiftLeft start count

/-! ## Byte lists as what is written -/

theorem exists_split {bytes : Bytes} {start count : Nat} (inside : start + count ≤ bytes.length) :
    ∃ before part behind, bytes = before ++ part ++ behind ∧ before.length = start ∧ part.length = count := by
  refine ⟨bytes.take start, (bytes.drop start).take count, bytes.drop (start + count), ?_, ?_, ?_⟩
  · rw [← List.drop_drop, List.append_assoc, List.take_append_drop, List.take_append_drop]
  · exact List.length_take_of_le (by omega)
  · exact List.length_take_of_le (by rw [List.length_drop]; omega)

namespace Edit

variable {capacity : Nat} {before part behind replacement : Bytes}

theorem patch_split (same : part.length = replacement.length) :
    patch before.length replacement (before ++ part ++ behind) = .ok () (before ++ replacement ++ behind) := by
  have inside : before.length + replacement.length ≤ (before ++ part ++ behind).length := by
    rw [List.length_append, List.length_append, same]
    exact Nat.le_add_right _ _
  unfold patch
  rw [if_pos inside, ← same, ← List.length_append, List.drop_left, List.append_assoc before part, List.take_left]

theorem shiftLeft_split :
    shiftLeft before.length part.length (before ++ part ++ behind) = .ok () (before ++ behind) := by
  have inside : before.length + part.length ≤ (before ++ part ++ behind).length := by
    rw [List.length_append, List.length_append]
    exact Nat.le_add_right _ _
  unfold shiftLeft
  rw [if_pos inside, ← List.length_append, List.drop_left, List.append_assoc before part, List.take_left]

end Edit

/-! ## Buffers as byte lists -/

theorem sumInWord?_filter {first second bound : Nat} (small : bound < USize.size) :
    (sumInWord? first second).filter (· ≤ bound) =
      if first + second ≤ bound then some (first + second) else none := by
  unfold sumInWord?
  by_cases inside : first + second ≤ bound
  · rw [if_pos inside, if_pos (Nat.lt_of_le_of_lt inside small), Option.filter_some, if_pos (decide_eq_true inside)]
  · rw [if_neg inside]
    split
    · rw [Option.filter_some, if_neg (by simpa using inside)]
    · rfl

namespace Buffer

structure Represents (capacity : Nat) (buffer : Buffer) (written : Bytes) : Prop where
  size : buffer.cells.size = capacity
  position : buffer.position = written.length
  front : ∃ stale, buffer.cells.toList = written ++ stale

variable {capacity : Nat} {buffer : Buffer} {written : Bytes}

theorem represents_empty (cells : Array UInt8) : (Buffer.mk cells 0).Represents cells.size [] :=
  ⟨rfl, rfl, cells.toList, rfl⟩

namespace Represents

variable (represents : buffer.Represents capacity written)
include represents

theorem length_le : written.length ≤ capacity := by
  obtain ⟨stale, cells⟩ := represents.front
  rw [← represents.size, ← Array.length_toList, cells, List.length_append]
  exact Nat.le_add_right _ _

theorem seen_eq : buffer.seen = ⟨written, written.length, capacity⟩ := by
  obtain ⟨stale, cells⟩ := represents.front
  rw [Buffer.seen, Buffer.written, cells, represents.position, represents.size, List.take_left]

theorem room_eq : buffer.room = capacity - written.length := by
  rw [room, represents.size, represents.position]

theorem advance {added : Bytes} (fits : written.length + added.length ≤ capacity) :
    (buffer.advance added).Represents capacity (written ++ added) := by
  obtain ⟨stale, cells⟩ := represents.front
  have length := congrArg List.length cells
  rw [Array.length_toList, represents.size, List.length_append] at length
  have enough : 0 + added.length ≤ stale.length := by omega
  obtain ⟨_, old, behind, rfl, empty, same⟩ := exists_split enough
  obtain rfl := List.length_eq_zero_iff.mp empty
  refine ⟨?_, ?_, behind, ?_⟩
  · exact (Write.size_overwrite _ _ _).trans represents.size
  · rw [List.length_append, ← represents.position]
    rfl
  · rw [Buffer.advance, represents.position]
    exact Write.toList_overwrite (by rw [cells, List.nil_append, List.append_assoc]) same

theorem ensure_ok {count : Nat} (fits : written.length + count ≤ capacity) : ensure count buffer = .ok () buffer := by
  unfold ensure
  rw [represents.room_eq, if_neg (by omega)]

theorem ensure_error {count : Nat} (lack : ¬ written.length + count ≤ capacity) :
    ensure count buffer = .error (.bufferTooSmall count (capacity - written.length)) buffer := by
  have le := represents.length_le
  unfold ensure
  rw [represents.room_eq, if_pos (by omega)]

theorem ensure_alike (count : Nat) :
    Program.Alike (Represents capacity) (ensure count buffer) (Edit.ensure capacity count written) := by
  unfold Edit.ensure
  by_cases fits : written.length + count ≤ capacity
  · rw [if_pos fits, represents.ensure_ok fits]
    exact ⟨rfl, represents⟩
  · rw [if_neg fits, represents.ensure_error fits]
    exact ⟨rfl, represents⟩

theorem append_alike (added : Bytes) :
    Program.Alike (Represents capacity) (append added buffer) (Edit.append capacity added written) := by
  unfold append Edit.append
  by_cases fits : written.length + added.length ≤ capacity
  · rw [if_pos fits, Program.bind_ok (represents.ensure_ok fits)]
    exact ⟨rfl, represents.advance fits⟩
  · rw [if_neg fits, Program.bind_error (represents.ensure_error fits)]
    exact ⟨rfl, represents⟩

theorem reserve_alike (count : Nat) :
    Program.Alike (Represents capacity) (reserve count buffer) (Edit.reserve capacity count written) := by
  have zeros : (List.replicate count (0 : UInt8)).length = count := List.length_replicate
  unfold reserve Edit.reserve
  by_cases fits : written.length + count ≤ capacity
  · rw [if_pos fits, Program.bind_ok (represents.ensure_ok fits)]
    exact ⟨represents.position, represents.advance (zeros.symm ▸ fits)⟩
  · rw [if_neg fits, Program.bind_error (represents.ensure_error fits)]
    exact ⟨rfl, represents⟩

theorem rewind_alike (position : Nat) :
    Program.Alike (Represents capacity) (rewind position buffer) (Edit.rewind position written) := by
  refine ⟨rfl, ?_⟩
  obtain ⟨stale, cells⟩ := represents.front
  rw [represents.position]
  by_cases shorter : position < written.length
  · rw [if_pos shorter]
    refine ⟨represents.size, (List.length_take_of_le (Nat.le_of_lt shorter)).symm, written.drop position ++ stale, ?_⟩
    rw [← List.append_assoc, List.take_append_drop, cells]
  · rw [if_neg shorter, List.take_of_length_le (Nat.le_of_not_lt shorter)]
    exact represents

theorem patch_alike (addressable : capacity < USize.size) (start : Nat) (replacement : Bytes) :
    Program.Alike (Represents capacity) (patch start replacement buffer) (Edit.patch start replacement written) := by
  unfold patch
  rw [sumInWord?_filter (Nat.lt_of_le_of_lt (represents.position ▸ represents.length_le) addressable),
    represents.position]
  by_cases inside : start + replacement.length ≤ written.length
  · obtain ⟨stale, cells⟩ := represents.front
    obtain ⟨before, part, behind, rfl, rfl, same⟩ := exists_split inside
    rw [if_pos inside, Edit.patch_split same]
    refine ⟨rfl, (Write.size_overwrite _ _ _).trans represents.size, ?_, stale, ?_⟩
    · simp only [List.length_append, same]
    · rw [List.append_assoc _ behind] at cells ⊢
      exact Write.toList_overwrite cells same
  · unfold Edit.patch
    rw [if_neg inside, if_neg inside]
    exact ⟨rfl, represents⟩

theorem shiftLeft_alike (addressable : capacity < USize.size) (start count : Nat) :
    Program.Alike (Represents capacity) (shiftLeft start count buffer) (Edit.shiftLeft start count written) := by
  unfold shiftLeft
  rw [sumInWord?_filter (Nat.lt_of_le_of_lt (represents.position ▸ represents.length_le) addressable),
    represents.position]
  by_cases inside : start + count ≤ written.length
  · obtain ⟨stale, cells⟩ := represents.front
    obtain ⟨before, gap, behind, rfl, rfl, rfl⟩ := exists_split inside
    rw [if_pos inside, Edit.shiftLeft_split]
    have moved :
        (buffer.cells.extract (before.length + gap.length) (before ++ gap ++ behind).length).toList = behind := by
      rw [Array.toList_extract, List.extract_eq_take_drop, cells, List.append_assoc (before ++ gap),
        ← List.length_append, List.drop_left, List.length_append, Nat.add_sub_cancel_left, List.take_left]
    -- As many cells as are moved lose their bytes; what stands behind these is stale.
    have long : 0 + behind.length ≤ (gap ++ behind ++ stale).length := by
      simp only [List.length_append]
      omega
    obtain ⟨_, old, left, split, empty, same⟩ := exists_split long
    obtain rfl := List.length_eq_zero_iff.mp empty
    have replaced : buffer.cells.toList = before ++ old ++ left := by
      rw [cells, List.append_assoc before old, ← List.nil_append old, ← split]
      simp only [List.append_assoc]
    dsimp only
    rw [moved]
    refine ⟨rfl, (Write.size_overwrite _ _ _).trans represents.size, ?_, left, Write.toList_overwrite replaced same⟩
    simp only [List.length_append]
    omega
  · unfold Edit.shiftLeft
    rw [if_neg inside, if_neg inside]
    exact ⟨rfl, represents⟩

theorem alike (addressable : capacity < USize.size) (call : BufferCall) :
    Program.Alike (Represents capacity) (call.onBuffer buffer) (call.onBytes capacity written) := by
  cases call with
  | ensure count => exact (represents.ensure_alike count).map _
  | append added => exact (represents.append_alike added).map _
  | appendWord number => exact (represents.append_alike number.bytes).map _
  | reserve count => exact (represents.reserve_alike count).map _
  | patch start replacement => exact (represents.patch_alike addressable start replacement).map _
  | patchWord start number => exact (represents.patch_alike addressable start number.bytes).map _
  | rewind position => exact (represents.rewind_alike position).map _
  | shiftLeft start count => exact (represents.shiftLeft_alike addressable start count).map _

end Represents

end Buffer

end MarketWire
