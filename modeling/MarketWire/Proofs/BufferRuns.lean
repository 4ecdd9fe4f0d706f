import MarketWire.Proofs.Buffers

/-! Runs of calls on buffers and on outputs.

An output answers each call as the list of its bytes does, and so does a buffer, whatever it held at first. So no run of
calls tells an output from a buffer of the same capacity.
-/

set_option autoImplicit false

namespace MarketWire

/-! ## Outputs as byte lists -/

namespace Output

/-- An output of a capacity has a byte list written. -/
structure Shows (capacity : Nat) (output : Output) (written : Bytes) : Prop where
  bytes : output.toList = written
  capacity : output.capacity = capacity

namespace Shows

variable {capacity : Nat} {output : Output} {written : Bytes} (shown : output.Shows capacity written)
include shown

theorem position_eq : output.position = written.length := by
  rw [← shown.bytes, length_toList]

theorem room_eq : output.room = capacity - written.length := by
  rw [← shown.position_eq, ← shown.capacity]
  rfl

theorem length_le : written.length ≤ capacity := by
  rw [← shown.position_eq, ← shown.capacity]
  exact output.size_le

theorem seen_eq : output.seen = ⟨written, written.length, capacity⟩ := by
  rw [seen, shown.bytes, shown.position_eq, shown.capacity]

theorem le_room_iff {count : Nat} : count ≤ output.room ↔ written.length + count ≤ capacity := by
  have le := shown.length_le
  rw [shown.room_eq]
  omega

theorem ensure_alike (count : Nat) :
    Program.Alike (Shows capacity) (Write.ensure count output) (Edit.ensure capacity count written) := by
  unfold Write.ensure Edit.ensure
  by_cases fits : written.length + count ≤ capacity
  · rw [if_pos fits, if_pos (shown.le_room_iff.mpr fits)]
    exact ⟨rfl, shown⟩
  · rw [if_neg fits, if_neg (fits ∘ shown.le_room_iff.mp), shown.room_eq]
    exact ⟨rfl, shown⟩

theorem bytes_alike (added : Bytes) :
    Program.Alike (Shows capacity) (Write.bytes added output) (Edit.append capacity added written) := by
  have appends := Write.bytes_appends added
  unfold Edit.append
  by_cases fits : written.length + added.length ≤ capacity
  · obtain ⟨after, ran, grown⟩ := appends.whole output (shown.le_room_iff.mpr fits)
    obtain ⟨same, -⟩ := (Write.bytes_emits added).of_ok ran
    rw [ran, if_pos fits]
    exact ⟨rfl, shown.bytes ▸ grown, same.trans shown.capacity⟩
  · rw [appends.lacking output (Nat.lt_of_not_le (fits ∘ shown.le_room_iff.mp)), if_neg fits, shown.room_eq]
    exact ⟨rfl, shown⟩

theorem reserve_alike (count : Nat) :
    Program.Alike (Shows capacity) (Write.reserve count output) (Edit.reserve capacity count written) := by
  have zeros : (List.replicate count (0 : UInt8)).length = count := List.length_replicate
  unfold Write.reserve Edit.reserve
  rw [Program.bind_ok (rfl : Write.position output = .ok output.position output)]
  by_cases fits : written.length + count ≤ capacity
  · have enough := shown.le_room_iff.mpr fits
    obtain ⟨after, ran, grown⟩ := (Write.bytes_appends _).whole output (zeros.symm ▸ enough)
    obtain ⟨same, -⟩ := (Write.bytes_emits _).of_ok ran
    rw [Program.bind_ok (if_pos enough : Write.ensure count output = .ok () output), Program.bind_ok ran, if_pos fits]
    exact ⟨shown.position_eq, shown.bytes ▸ grown, same.trans shown.capacity⟩
  · have lack := fits ∘ shown.le_room_iff.mp
    rw [Program.bind_error (if_neg lack : Write.ensure count output = _), if_neg fits, shown.room_eq]
    exact ⟨rfl, shown⟩

theorem rewind_alike (position : Nat) :
    Program.Alike (Shows capacity) (Write.rewind position output) (Edit.rewind position written) :=
  ⟨rfl, (toList_cut output position).trans (congrArg _ shown.bytes),
    (capacity_cut output position).trans shown.capacity⟩

theorem patch_alike (start : Nat) (replacement : Bytes) :
    Program.Alike (Shows capacity) (Write.patch start replacement output) (Edit.patch start replacement written) := by
  by_cases inside : start + replacement.length ≤ written.length
  · obtain ⟨before, part, behind, rfl, rfl, same⟩ := exists_split inside
    obtain ⟨after, ran, kept, patched⟩ := Write.patch_ok replacement shown.bytes same
    rw [ran, Edit.patch_split same]
    exact ⟨rfl, patched, kept.trans shown.capacity⟩
  · have refused : Write.patch start replacement output =
        .error (.invalidState "patch outside written region") output :=
      if_neg fun told => inside (shown.position_eq ▸ told)
    unfold Edit.patch
    rw [refused, if_neg inside]
    exact ⟨rfl, shown⟩

theorem shiftLeft_alike (start count : Nat) :
    Program.Alike (Shows capacity) (Write.shiftLeft start count output) (Edit.shiftLeft start count written) := by
  by_cases inside : start + count ≤ written.length
  · obtain ⟨before, gap, behind, rfl, rfl, rfl⟩ := exists_split inside
    obtain ⟨after, ran, kept, moved⟩ := Write.shiftLeft_ok shown.bytes
    rw [ran, Edit.shiftLeft_split]
    exact ⟨rfl, moved, kept.trans shown.capacity⟩
  · have refused : Write.shiftLeft start count output =
        .error (.invalidState "shift outside written region") output :=
      dif_neg fun told => inside (shown.position_eq ▸ told)
    unfold Edit.shiftLeft
    rw [refused, if_neg inside]
    exact ⟨rfl, shown⟩

/-- A call on an output answers what the call on its byte list answers. -/
theorem alike (call : BufferCall) :
    Program.Alike (Shows capacity) (call.onOutput output) (call.onBytes capacity written) := by
  cases call with
  | ensure count => exact (shown.ensure_alike count).map _
  | append added => exact (shown.bytes_alike added).map _
  | appendWord number => exact (number.write_eq ▸ shown.bytes_alike number.bytes).map _
  | reserve count => exact (shown.reserve_alike count).map _
  | patch start replacement => exact (shown.patch_alike start replacement).map _
  | patchWord start number => exact (number.patchNumber_eq start ▸ shown.patch_alike start number.bytes).map _
  | rewind position => exact (shown.rewind_alike position).map _
  | shiftLeft start count => exact (shown.shiftLeft_alike start count).map _

end Shows

end Output

/-! ## Runs of calls -/

def Edit.seen (capacity : Nat) (written : Bytes) : Seen := ⟨written, written.length, capacity⟩

namespace Edit

variable {α β : Type} {written left : Bytes} {error : EncodeError}

theorem of_ite_error {condition : Prop} [Decidable condition] {value : α} {changed : Bytes} {cause : EncodeError}
    (failed : (if condition then .ok value changed else .error cause written : EStateM.Result EncodeError Bytes α) =
      .error error left) : left = written := by
  split at failed
  case isTrue => cases failed
  case isFalse =>
    cases failed
    rfl

theorem of_map_error {edit : Edit α} {f : α → β} (failed : (f <$> edit) written = .error error left) :
    edit written = .error error left := by
  change EStateM.map f edit written = _ at failed
  unfold EStateM.map at failed
  split at failed
  case h_1 => cases failed
  case h_2 ran =>
    cases failed
    exact ran

end Edit

theorem BufferCall.onBytes_error {capacity : Nat} {call : BufferCall} {written left : Bytes} {error : EncodeError}
    (failed : call.onBytes capacity written = .error error left) : left = written := by
  cases call with
  | rewind => cases failed
  | _ => exact Edit.of_ite_error (Edit.of_map_error failed)

/-- Whatever a buffer holds at first and whatever is asked of it, each call answers what it answers on the list of the
bytes written so far, and leaves the list that is changed in this way; the same holds of an output of the same capacity.
The position stays within the capacity, which never changes, and a call that fails leaves the list as it was. -/
theorem Buffer.traces_agree (cells : Array UInt8) (addressable : cells.size < USize.size) (calls : List BufferCall) :
    let edits := Program.trace (BufferCall.onBytes cells.size) (Edit.seen cells.size) calls []
    Program.trace BufferCall.onBuffer Buffer.seen calls ⟨cells, 0⟩ = edits ∧
      Program.trace BufferCall.onOutput Output.seen calls (.empty cells.size) = edits ∧
      (∀ entry ∈ edits, entry.2.position ≤ entry.2.capacity ∧ entry.2.capacity = cells.size) ∧
      ∀ (call : BufferCall) (written left : Bytes) (error : EncodeError),
        call.onBytes cells.size written = .error error left → left = written := by
  intro edits
  have start := represents_empty cells
  have buffers : Program.trace BufferCall.onBuffer Buffer.seen calls ⟨cells, 0⟩ = edits :=
    Program.trace_eq (fun _ _ represents => represents.seen_eq)
      (fun call _ _ represents => represents.alike addressable call) calls start
  refine ⟨buffers, ?_, ?_, fun _ _ _ _ => BufferCall.onBytes_error⟩
  · have empty : (Output.empty cells.size).Shows cells.size [] := ⟨Output.toList_empty _, rfl⟩
    have alike (call : BufferCall) (output : Output) (written : Bytes) (shown : output.Shows cells.size written) :
        Program.Alike (Output.Shows cells.size) (call.onOutput output) (call.onBytes cells.size written) :=
      shown.alike call
    exact Program.trace_eq (fun _ _ shown => shown.seen_eq) alike calls empty
  · have keeps (call : BufferCall) :
        Program.Keeps (fun buffer : Buffer => ∃ written, buffer.Represents cells.size written) call.onBuffer :=
      fun _ ⟨_, represents⟩ => ⟨_, (represents.alike addressable call).after⟩
    rw [← buffers]
    intro entry member
    obtain ⟨buffer, ⟨written, represents⟩, seen⟩ := Program.forall_mem_trace keeps ⟨[], start⟩ entry member
    rw [seen, represents.seen_eq]
    exact ⟨represents.length_le, rfl⟩

/-- Bytes that were cut off or moved away do not come back, not even where room is reserved in their places. A place
that is near the end of all numbers is outside of what is written. -/
theorem Buffer.traces_agree_stale :
    Program.trace BufferCall.onBuffer Buffer.seen
        [.append [1, 2, 3, 4], .rewind 1, .reserve 3, .patchWord 1 (.uint16 0xABCD), .shiftLeft 0 1,
          .patch (2 ^ 64 - 1) [0, 0], .append [5, 6, 7, 8]] ⟨.replicate 6 0xEE, 0⟩ =
      [(.ok none, ⟨[1, 2, 3, 4], 4, 6⟩), (.ok none, ⟨[1], 1, 6⟩), (.ok (some 1), ⟨[1, 0, 0, 0], 4, 6⟩),
        (.ok none, ⟨[1, 0xAB, 0xCD, 0], 4, 6⟩), (.ok none, ⟨[0xAB, 0xCD, 0], 3, 6⟩),
        (.error (.invalidState "patch outside written region"), ⟨[0xAB, 0xCD, 0], 3, 6⟩),
        (.error (.bufferTooSmall 4 3), ⟨[0xAB, 0xCD, 0], 3, 6⟩)] := by
  have small : (Array.replicate 6 (0xEE : UInt8)).size < USize.size := Nat.lt_of_lt_of_le (by decide) USize.le_size
  rw [(traces_agree _ small _).1]
  rfl

end MarketWire
