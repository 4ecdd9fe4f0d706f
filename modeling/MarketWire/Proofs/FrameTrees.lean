import MarketWire.Proofs.SelfDelimiting

/-! Frames within frames.

A tree of frames is written from the outside in: each length is left open until all that it counts is written, and then
the bytes behind it move up. The same bytes come of encoding the parts of each frame first and putting their length in
front of them. A length that is closed stands behind those of all frames around it, so it moves none of them, and they
count what is left of the frame.
-/

set_option autoImplicit false

namespace MarketWire

inductive FrameTree where
  | bytes (payload : Bytes)
  | frame (form : LengthForm) (parts : List FrameTree)

def LengthForm.enclose (form : LengthForm) (payload : Bytes) : Except EncodeError Bytes :=
  Write.toBytes (form.reserved + payload.length) (Write.framed form payload)

namespace FrameTree

mutual

def write : FrameTree → Write Unit
  | .bytes payload => Write.bytes payload
  | .frame form parts => LengthSlot.around form (writeAll parts)

def writeAll : List FrameTree → Write Unit
  | [] => pure ()
  | part :: parts => do
    part.write
    writeAll parts

end

mutual

def encode : FrameTree → Except EncodeError Bytes
  | .bytes payload => .ok payload
  | .frame form parts => do form.enclose (← encodeAll parts)

def encodeAll : List FrameTree → Except EncodeError Bytes
  | [] => .ok []
  | part :: parts => do return (← part.encode) ++ (← encodeAll parts)

end

mutual

def length : FrameTree → Nat
  | .bytes payload => payload.length
  | .frame form parts => (form.spell (lengthAll parts)).length + lengthAll parts

def lengthAll : List FrameTree → Nat
  | [] => 0
  | part :: parts => part.length + lengthAll parts

end

mutual

/-- The most room that is taken at any time while a tree is written. -/
def need : FrameTree → Nat
  | .bytes payload => payload.length
  | .frame form parts => form.reserved + needAll parts

def needAll : List FrameTree → Nat
  | [] => 0
  | part :: parts => max part.need (part.length + needAll parts)

end

end FrameTree

/-- A payload of a length that the form can tell stands behind it in the frame; a longer one is refused. -/
theorem LengthForm.enclose_eq (form : LengthForm) (payload : Bytes) :
    form.enclose payload =
      if payload.length ≤ form.max then .ok (form.frame payload)
      else .error (.lengthOverflow payload.length form.max) := by
  unfold enclose Write.toBytes
  by_cases fits : payload.length ≤ form.max
  · have spelled := form.length_spell_le payload.length
    have room : (form.frame payload).length ≤ (Output.empty (form.reserved + payload.length)).room := by
      rw [frame, List.length_append]
      change _ ≤ form.reserved + payload.length - 0
      omega
    obtain ⟨after, ran, bytes⟩ := (Write.framed_appends fits).whole _ room
    rw [ran, if_pos fits]
    exact congrArg Except.ok bytes
  · rw [Write.framed_refuses (Nat.lt_of_not_le fits), if_neg fits]

/-! ## Writers that follow an encoding -/

/-- Where there is so much room, a writer appends what an encoding gives, or fails as the encoding does. -/
def Write.Follows (writer : Write Unit) (encoding : Except EncodeError Bytes) (need : Nat) : Prop :=
  ∀ output : Output, need ≤ output.room → match encoding with
    | .ok form => ∃ after, writer output = .ok () after ∧ after.capacity = output.capacity ∧
        after.toList = output.toList ++ form
    | .error error => ∃ after, writer output = .error error after

namespace Write.Follows

variable {writer next : Write Unit} {encoding : Except EncodeError Bytes} {need : Nat}

theorem bytes (payload : Bytes) : Follows (Write.bytes payload) (.ok payload) payload.length := by
  intro output enough
  obtain ⟨after, ran, grown⟩ := (bytes_appends payload).whole output enough
  exact ⟨after, ran, ((bytes_emits payload).of_ok ran).1, grown⟩

theorem nothing : Follows (pure ()) (.ok []) 0 :=
  fun output _ => ⟨output, rfl, rfl, (List.append_nil _).symm⟩

theorem append {more length : Nat} {behind : Except EncodeError Bytes} (follows : Follows writer encoding need)
    (following : Follows next behind more) (counted : ∀ form, encoding = .ok form → form.length = length) :
    Follows (do writer; next) (do return (← encoding) ++ (← behind)) (max need (length + more)) := by
  intro output enough
  have first := follows output (Nat.le_trans (Nat.le_max_left _ _) enough)
  cases encoding with
  | error error =>
    obtain ⟨after, ran⟩ := first
    exact ⟨after, Program.bind_error ran⟩
  | ok form =>
    obtain ⟨middle, ran, capacity, grown⟩ := first
    have room := Output.room_append capacity grown
    rw [counted form rfl] at room
    have second := following middle (by omega)
    cases behind with
    | error error =>
      obtain ⟨after, failed⟩ := second
      exact ⟨after, (Program.bind_ok ran).trans failed⟩
    | ok tail =>
      obtain ⟨after, ended, same, bytes⟩ := second
      refine ⟨after, (Program.bind_ok ran).trans ended, same.trans capacity, ?_⟩
      rw [bytes, grown, List.append_assoc]

end Write.Follows

/-! ## Slots around what follows an encoding -/

namespace LengthSlot

variable {writer : Write Unit} {encoding : Except EncodeError Bytes} {need : Nat} {form : LengthForm}

def before (form : LengthForm) (writer : Write Unit) : Write LengthSlot := do
  let slot ← reserve form
  writer
  return slot

theorem around_eq (form : LengthForm) (writer : Write Unit) :
    around form writer = before form writer >>= close := by
  unfold around before
  simp only [bind_assoc, pure_bind]

theorem before_error {error : EncodeError} (follows : writer.Follows (.error error) need) {output : Output}
    (enough : form.reserved + need ≤ output.room) : ∃ left, before form writer output = .error error left := by
  obtain ⟨slot, opened, reserved⟩ := (reserve_needs form output).of_room (Nat.le_trans (Nat.le_add_right _ _) enough)
  obtain ⟨capacity, zeros, bytes, rfl, rfl⟩ := (reserve_extends form).of_ok reserved
  have room := Output.room_append capacity bytes
  rw [List.length_replicate] at room
  obtain ⟨left, failed⟩ := follows opened (by omega)
  exact ⟨left, (Program.bind_ok reserved).trans (Program.bind_error failed)⟩

theorem before_ok {payload : Bytes} (follows : writer.Follows (.ok payload) need) {output : Output}
    (enough : form.reserved + need ≤ output.room) :
    ∃ filled, before form writer output = .ok ⟨output.position, form⟩ filled ∧ filled.capacity = output.capacity ∧
      filled.toList = output.toList ++ List.replicate form.reserved 0 ++ payload := by
  obtain ⟨slot, opened, reserved⟩ := (reserve_needs form output).of_room (Nat.le_trans (Nat.le_add_right _ _) enough)
  obtain ⟨capacity, zeros, bytes, rfl, rfl⟩ := (reserve_extends form).of_ok reserved
  have room := Output.room_append capacity bytes
  rw [List.length_replicate] at room
  obtain ⟨filled, ran, same, grown⟩ := follows opened (by omega)
  refine ⟨filled, (Program.bind_ok reserved).trans (Program.bind_ok ran), same.trans capacity, ?_⟩
  rw [grown, bytes]

/-- A slot behind which a payload stands is closed as the payload is enclosed: the frame takes the place of both, or
nothing changes. -/
theorem close_encloses {output filled : Output} {payload : Bytes}
    (bytes : filled.toList = output.toList ++ List.replicate form.reserved 0 ++ payload) :
    match form.enclose payload with
    | .ok frame => ∃ after, close ⟨output.position, form⟩ filled = .ok () after ∧ after.capacity = filled.capacity ∧
        after.toList = output.toList ++ frame
    | .error error => close ⟨output.position, form⟩ filled = .error error filled := by
  rw [LengthForm.enclose_eq, ← Output.length_toList]
  rcases close_eq bytes with ⟨fits, closed⟩ | ⟨long, refused⟩
  · rw [if_pos fits]
    exact closed
  · rw [if_neg (Nat.not_le.mpr long)]
    exact refused

theorem close_error_iff {output filled after : Output} {payload : Bytes} {error : EncodeError}
    (bytes : filled.toList = output.toList ++ List.replicate form.reserved 0 ++ payload) :
    close ⟨output.position, form⟩ filled = .error error after ↔
      form.enclose payload = .error error ∧ error = .lengthOverflow payload.length form.max ∧ after = filled := by
  have closed := close_encloses bytes
  rw [LengthForm.enclose_eq] at closed ⊢
  by_cases fits : payload.length ≤ form.max
  · rw [if_pos fits] at closed ⊢
    obtain ⟨last, ended, -⟩ := closed
    rw [ended]
    exact ⟨nofun, nofun⟩
  · rw [if_neg fits] at closed ⊢
    rw [closed]
    constructor
    · rintro ⟨⟩
      exact ⟨rfl, rfl, rfl⟩
    · rintro ⟨⟨⟩, -, rfl⟩
      rfl

theorem around_follows (follows : writer.Follows encoding need) :
    (around form writer).Follows (do form.enclose (← encoding)) (form.reserved + need) := by
  intro output enough
  rw [around_eq]
  cases encoding with
  | error error =>
    obtain ⟨left, failed⟩ := before_error follows enough
    exact ⟨left, Program.bind_error failed⟩
  | ok payload =>
    obtain ⟨filled, ran, capacity, bytes⟩ := before_ok follows enough
    have closed := close_encloses bytes
    rw [Program.ok_bind, Program.bind_ok ran]
    cases enclosed : form.enclose payload with
    | error error =>
      rw [enclosed] at closed
      exact ⟨filled, closed⟩
    | ok frame =>
      rw [enclosed] at closed
      obtain ⟨after, ended, same, grown⟩ := closed
      exact ⟨after, ended, same.trans capacity, grown⟩

/-- Whatever became of the writer behind a slot, nothing is left of it when the slot is abandoned. -/
theorem abandon_before {post : Nat → Unit → Bytes → Prop} (extending : writer.Extends post) (output : Output) :
    abandon ⟨output.position, form⟩ (Program.after (before form writer) output) = .ok () output := by
  have known := ((reserve_extends form).bind fun slot => extending.bind fun _ => Write.Extends.pure slot) output
  have back {after : Output} (capacity : after.capacity = output.capacity) (kept : output.toList <+: after.toList) :
      abandon ⟨output.position, form⟩ after = .ok () output :=
    congrArg (EStateM.Result.ok ()) (Output.cut_eq capacity kept)
  unfold Program.after before
  split at known
  case h_1 value after ran =>
    obtain ⟨capacity, added, bytes, -⟩ := known
    rw [ran]
    exact back capacity (bytes ▸ List.prefix_append _ _)
  case h_2 error after ran =>
    rw [ran]
    exact back known.1 known.2

end LengthSlot

/-! ## Trees -/

namespace FrameTree

mutual

theorem length_encode (tree : FrameTree) {form : Bytes} (encoded : tree.encode = .ok form) :
    form.length = tree.length := by
  cases tree with
  | bytes payload =>
    cases encoded
    rfl
  | frame form parts =>
    obtain ⟨payload, inner, enclosed⟩ := Program.of_ok_bind encoded
    rw [LengthForm.enclose_eq] at enclosed
    split at enclosed
    case isFalse => cases enclosed
    case isTrue =>
      cases enclosed
      rw [LengthForm.frame, List.length_append, length_encodeAll parts inner]
      rfl

theorem length_encodeAll (parts : List FrameTree) {form : Bytes} (encoded : encodeAll parts = .ok form) :
    form.length = lengthAll parts := by
  cases parts with
  | nil =>
    cases encoded
    rfl
  | cons part parts =>
    obtain ⟨head, first, encoded⟩ := Program.of_ok_bind encoded
    obtain ⟨tail, others, encoded⟩ := Program.of_ok_bind encoded
    cases encoded
    rw [List.length_append, length_encode part first, length_encodeAll parts others]
    rfl

end

mutual

/-- A tree is written as it is encoded, whatever stands before it. That may be slots of frames around the tree, so the
parts of a frame follow their encodings behind the slot of the frame. -/
theorem write_follows (tree : FrameTree) : tree.write.Follows tree.encode tree.need := by
  cases tree with
  | bytes payload => exact .bytes payload
  | frame form parts => exact LengthSlot.around_follows (writeAll_follows parts)

theorem writeAll_follows (parts : List FrameTree) : (writeAll parts).Follows (encodeAll parts) (needAll parts) := by
  cases parts with
  | nil => exact .nothing
  | cons part parts =>
    exact (write_follows part).append (writeAll_follows parts) fun form encoded => length_encode part encoded

end

mutual

theorem write_extends (tree : FrameTree) : tree.write.Extends fun _ _ _ => True := by
  cases tree with
  | bytes payload => exact (Write.bytes_emits payload).mono fun _ _ _ _ => trivial
  | frame form parts => exact (LengthSlot.around_extends form (writeAll_extends parts)).mono fun _ _ _ _ => trivial

theorem writeAll_extends (parts : List FrameTree) : (writeAll parts).Extends fun _ _ _ => True := by
  cases parts with
  | nil => exact (Write.Emits.pure ()).mono fun _ _ _ _ => trivial
  | cons part parts =>
    exact ((write_extends part).bind fun _ => writeAll_extends parts).mono fun _ _ _ _ => trivial

end

/-- Where there is room, a tree of frames is written as it is encoded from the inside out, whatever stands before it. At
each frame in it, the slot behind which the parts stand is refused exactly as their encoding is refused when its length
is to be put in front, and then nothing changes. A slot that is abandoned leaves just what stood before the frame,
whatever became of the parts. -/
theorem write_insideOut (tree : FrameTree) :
    tree.write.Follows tree.encode tree.need ∧
    ∀ form parts, tree = .frame form parts → ∀ output : Output,
      let slot : LengthSlot := ⟨output.position, form⟩
      let written := LengthSlot.before form (writeAll parts)
      slot.abandon (Program.after written output) = .ok () output ∧
      (tree.need ≤ output.room → ∀ payload, encodeAll parts = .ok payload →
        ∃ filled, written output = .ok slot filled ∧ ∀ error after, slot.close filled = .error error after ↔
          form.enclose payload = .error error ∧ error = .lengthOverflow payload.length form.max ∧ after = filled) := by
  refine ⟨write_follows tree, ?_⟩
  rintro form parts rfl output slot written
  refine ⟨LengthSlot.abandon_before (writeAll_extends parts) output, fun enough payload encoded => ?_⟩
  have follows := writeAll_follows parts
  rw [encoded] at follows
  obtain ⟨filled, ran, -, bytes⟩ := LengthSlot.before_ok follows enough
  exact ⟨filled, ran, fun error after => LengthSlot.close_error_iff bytes⟩

/-- Three frames of all forms within each other take eight bytes while they are written, and six in the end. A byte
counts no more than 255 bytes. -/
theorem write_insideOut_compacts :
    let tree : FrameTree := .frame .bits16 [.frame .bits15 [.frame .byte [.bytes [1, 2]]], .bytes [9]]
    let long : List FrameTree := [.bytes (List.replicate 256 7)]
    (∃ after, tree.write (.empty 8) = .ok () after ∧ after.toList = [5, 3, 2, 1, 2, 9]) ∧
      ∃ filled, LengthSlot.before .byte (writeAll long) (.empty 300) = .ok ⟨0, .byte⟩ filled ∧
        LengthSlot.close ⟨0, .byte⟩ filled = .error (.lengthOverflow 256 255) filled ∧
        LengthSlot.abandon ⟨0, .byte⟩ filled = .ok () (.empty 300) := by
  intro tree long
  have many : (List.replicate 256 (7 : UInt8)).length = 256 := List.length_replicate
  constructor
  · have encoded : tree.encode = .ok [5, 3, 2, 1, 2, 9] := by rfl
    have written := (write_insideOut tree).1 (.empty 8) (by decide)
    rw [encoded] at written
    obtain ⟨after, ran, -, bytes⟩ := written
    exact ⟨after, ran, bytes⟩
  · obtain ⟨abandoned, closes⟩ := (write_insideOut (.frame .byte long)).2 .byte long rfl (.empty 300)
    have encoded : encodeAll long = .ok (List.replicate 256 7) := congrArg Except.ok (List.append_nil _)
    have single (payload : Bytes) :
        need (.frame .byte [.bytes payload]) = 1 + max payload.length (payload.length + 0) := rfl
    have enough : need (.frame .byte long) ≤ 300 := by
      rw [single, many]
      decide
    obtain ⟨filled, ran, refused⟩ := closes enough _ encoded
    have enclosed := LengthForm.byte.enclose_eq (List.replicate 256 7)
    rw [many] at enclosed refused
    unfold Program.after at abandoned
    rw [ran] at abandoned
    exact ⟨filled, ran, (refused _ _).mpr ⟨enclosed, rfl, rfl⟩, abandoned⟩

end FrameTree

end MarketWire
