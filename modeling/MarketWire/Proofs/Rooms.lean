import MarketWire.Proofs.Rows
import MarketWire.Proofs.Summaries

/-! How much room writers need.

A length is written into room for its longest form, so a writer may need more room than it fills in
the end. What a sequence needs is the larger of two numbers: what its first step needs, and what that
step leaves behind with what the second one needs. With less room it fails, and for no other reason.
-/

set_option autoImplicit false

namespace MarketWire

namespace Output

variable {before after : Output} {added : Bytes}

theorem room_append (capacity : after.capacity = before.capacity)
    (bytes : after.toList = before.toList ++ added) : before.room = added.length + after.room := by
  have size := congrArg List.length bytes
  rw [List.length_append, length_toList, length_toList] at size
  have most := after.size_le
  unfold position at size
  unfold room
  omega

theorem room_empty (capacity : Nat) : (empty capacity).room = capacity := rfl

end Output

/-- A program succeeds when there is so much room in its state, and else fails for the lack of it. -/
def Program.Needs {σ α : Type} (room : σ → Nat) (program : EStateM EncodeError σ α) (need : Nat)
    (state : σ) : Prop :=
  match program state with
  | .ok .. => need ≤ room state
  | .error (.bufferTooSmall ..) _ => room state < need
  | .error .. => False

namespace Program

variable {σ α β : Type} {room : σ → Nat} {first : EStateM EncodeError σ α}
  {next : α → EStateM EncodeError σ β} {state : σ} {need : Nat}

theorem Needs.of_room (needs : Needs room first need state) (enough : need ≤ room state) :
    ∃ value after, first state = .ok value after := by
  unfold Needs at needs
  cases h : first state with
  | ok value after => exact ⟨value, after, rfl⟩
  | error error after =>
    rw [h] at needs
    cases error with
    | bufferTooSmall => exact absurd enough (Nat.not_le.mpr needs)
    | _ => exact needs.elim

theorem Needs.of_lack (needs : Needs room first need state) (lack : room state < need) :
    ∃ needed available after, first state = .error (.bufferTooSmall needed available) after := by
  unfold Needs at needs
  cases h : first state with
  | ok value after =>
    rw [h] at needs
    exact absurd needs (Nat.not_le.mpr lack)
  | error error after =>
    rw [h] at needs
    cases error with
    | bufferTooSmall needed available => exact ⟨needed, available, after, rfl⟩
    | _ => exact needs.elim

theorem Needs.pure (value : α) : Needs room (Pure.pure value) 0 state := Nat.zero_le _

theorem Needs.bind {length more : Nat} (needs : Needs room first need state)
    (behind : ∀ value middle, first state = .ok value middle →
      room state = length + room middle ∧ Needs room (next value) more middle) :
    Needs room (first >>= next) (max need (length + more)) state := by
  by_cases enough : need ≤ room state
  · obtain ⟨value, middle, done⟩ := needs.of_room enough
    obtain ⟨taken, needsMore⟩ := behind value middle done
    unfold Needs at needsMore ⊢
    rw [bind_ok done]
    split at needsMore
    · omega
    · omega
    · exact needsMore.elim
  · obtain ⟨needed, available, after, failed⟩ := needs.of_lack (Nat.lt_of_not_le enough)
    unfold Needs
    rw [bind_error failed]
    change room state < _
    omega

theorem Needs.of_next {value : α} {middle : σ} (done : first state = .ok value middle)
    (same : room middle = room state) (needs : Needs room (next value) need middle) :
    Needs room (first >>= next) need state := by
  unfold Needs at needs ⊢
  rw [bind_ok done, ← same]
  exact needs

theorem Needs.then_ok (needs : Needs room first need state)
    (behind : ∀ value middle, first state = .ok value middle →
      ∃ answer after, next value middle = .ok answer after) :
    Needs room (first >>= next) need state := by
  by_cases enough : need ≤ room state
  · obtain ⟨value, middle, done⟩ := needs.of_room enough
    obtain ⟨answer, after, ended⟩ := behind value middle done
    unfold Needs
    rw [bind_ok done, ended]
    exact enough
  · obtain ⟨needed, available, after, failed⟩ := needs.of_lack (Nat.lt_of_not_le enough)
    unfold Needs
    rw [bind_error failed]
    exact Nat.lt_of_not_le enough

end Program

/-! ## Writers -/

namespace Write

variable {α β : Type} {writer : Write α} {need : Nat}

def Needs (writer : Write α) (need : Nat) : Prop :=
  ∀ output, Program.Needs Output.room writer need output

/-- A writer that appends certain bytes and needs the room that they fill. -/
structure Prints (writer : Write α) (form : Bytes) : Prop where
  emits : Emits writer form
  needs : Needs writer form.length

theorem Needs.bind {next : α → Write β} {post : Nat → α → Bytes → Prop} {length more : Nat}
    (needs : Needs writer need) (extending : Extends writer post)
    (behind : ∀ start value added, post start value added →
      added.length = length ∧ Needs (next value) more) :
    Needs (writer >>= next) (max need (length + more)) := by
  refine fun output => (needs output).bind fun value middle done => ?_
  obtain ⟨capacity, added, bytes, told⟩ := extending.of_ok done
  obtain ⟨size, needsMore⟩ := behind _ _ _ told
  exact ⟨size ▸ Output.room_append capacity bytes, needsMore middle⟩

theorem Prints.then_needs {next : α → Write β} {form : Bytes} {more : Nat}
    (prints : Prints writer form) (behind : ∀ value, Needs (next value) more) :
    Needs (writer >>= next) (form.length + more) := by
  have needs := prints.needs.bind prints.emits fun _ value added (same : added = form) =>
    ⟨congrArg List.length same, behind value⟩
  rwa [Nat.max_eq_right (Nat.le_add_right ..)] at needs

theorem Prints.bind {next : α → Write β} {head tail : Bytes} (prints : Prints writer head)
    (behind : ∀ value, Prints (next value) tail) : Prints (writer >>= next) (head ++ tail) where
  emits := prints.emits.bind fun value => (behind value).emits
  needs := by
    rw [List.length_append]
    exact prints.then_needs fun value => (behind value).needs

theorem Prints.pure (value : α) : Prints (Pure.pure value : Write α) [] :=
  ⟨Emits.pure value, fun _ => Program.Needs.pure value⟩

theorem Prints.ensure_bind {next : Unit → Write β} {form : Bytes} {count : Nat}
    (prints : Prints (next ()) form) (few : count ≤ form.length) :
    Prints (ensure count >>= next) form where
  emits := (ensure_emits count).bind fun _ => prints.emits
  needs := by
    have test : Needs (ensure count) count := by
      intro output
      unfold Program.Needs ensure
      by_cases fits : count ≤ output.room
      · rw [if_pos fits]
        exact fits
      · rw [if_neg fits]
        exact Nat.lt_of_not_le fits
    have needs := test.bind (ensure_emits count) fun _ _ added (same : added = []) =>
      ⟨congrArg List.length same, prints.needs⟩
    rwa [List.length_nil, Nat.zero_add, Nat.max_eq_right few] at needs

theorem bytes_prints (added : Bytes) : Prints (bytes added) added where
  emits := bytes_emits added
  needs := by
    rintro ⟨written, capacity, size_le⟩
    unfold Program.Needs bytes Output.room
    dsimp only
    by_cases fits : added.length ≤ capacity - written.size
    · rw [dif_pos fits]
      exact fits
    · rw [dif_neg fits]
      exact Nat.lt_of_not_le fits

theorem reserve_needs (count : Nat) : Needs (reserve count) count := by
  have prints : Prints (do ensure count; bytes (List.replicate count 0)) (List.replicate count 0) :=
    (bytes_prints _).ensure_bind (Nat.le_of_eq List.length_replicate.symm)
  intro output
  have needs := prints.needs output
  rw [List.length_replicate] at needs
  have start : position output = .ok output.position output := rfl
  refine Program.Needs.of_next start rfl ?_
  rw [← bind_assoc]
  exact needs.then_ok fun _ middle _ => ⟨_, middle, rfl⟩

theorem atomic_needs (needs : Needs writer need) : Needs (atomic writer) need := by
  intro output
  have told := needs output
  unfold Program.Needs atomic atomicFrom at *
  cases h : writer output with
  | ok value after =>
    rw [h] at told
    exact told
  | error error after =>
    rw [h] at told
    cases error with
    | bufferTooSmall => exact told
    | _ => exact told.elim

theorem Prints.atomic {form : Bytes} (prints : Prints writer form) : Prints (Write.atomic writer) form where
  emits := prints.emits.atomic
  needs := atomic_needs prints.needs

theorem each_prints {α : Type} {writer : α → Write Unit} {form : α → Bytes} {values : List α}
    (prints : ∀ value ∈ values, Prints (writer value) (form value)) :
    Prints (each writer values) (values.flatMap form) := by
  induction values with
  | nil => exact Prints.pure ()
  | cons value rest ih =>
    rw [List.flatMap_cons]
    exact (prints value List.mem_cons_self).bind fun _ =>
      ih fun other member => prints other (List.mem_cons_of_mem _ member)

theorem framed_prints {form : LengthForm} {payload : Bytes} (fits : payload.length ≤ form.max) :
    Prints (framed form payload) (form.frame payload) := by
  unfold framed
  rw [if_pos fits]
  refine ((bytes_prints _).bind fun _ => bytes_prints payload).ensure_bind ?_
  rw [LengthForm.frame, List.length_append]
  exact Nat.le_of_eq (Nat.add_comm _ _)

end Write

theorem LengthSlot.reserve_needs (form : LengthForm) :
    Write.Needs (reserve form) form.reserved :=
  fun output => (Write.reserve_needs _ output).then_ok fun _ middle _ => ⟨_, middle, rfl⟩

/-- Behind the room for the longest length a payload needs what it needs without. -/
theorem LengthSlot.around_needs {form : LengthForm} {writer : Write Unit} {payload : Bytes}
    {need : Nat} (fits : payload.length ≤ form.max) (emits : Write.Emits writer payload)
    (needs : Write.Needs writer need) :
    Write.Needs (around form writer) (form.reserved + need) := by
  intro output
  rw [← Nat.max_eq_right (Nat.le_add_right form.reserved need)]
  refine (reserve_needs form output).bind fun slot middle reserved => ?_
  obtain ⟨capacity, room, bytes, rfl, rfl⟩ := (reserve_extends form).of_ok reserved
  have taken := Output.room_append capacity bytes
  rw [List.length_replicate] at taken
  refine ⟨taken, (needs middle).then_ok fun _ last written => ?_⟩
  obtain ⟨-, _, payloadBytes, rfl⟩ := emits.of_ok written
  rw [bytes] at payloadBytes
  rw [← Output.length_toList]
  -- A payload that is short enough leaves nothing that closing could refuse.
  rcases close_eq payloadBytes with ⟨-, after, closed, -⟩ | ⟨long, -⟩
  · exact ⟨(), after, closed⟩
  · exact absurd fits (Nat.not_le.mpr long)

/-! ## Values -/

namespace Primitive

theorem number_prints {width : Nat} (most : width ≤ 8) (n : UInt64) :
    Write.Prints (Width.writeUnsigned n width) (Bytes.ofNat width n.toNat) := by
  unfold Width.writeUnsigned
  rw [if_pos most]
  exact Write.bytes_prints _

theorem encode_prints {value : Primitive} (plain : value.isPlain) :
    Write.Prints value.encode value.payload := by
  have eight {width : Nat} (most : width ≤ 8) : max width 1 ≤ 8 := by omega
  cases value with
  | int n => exact number_prints (eight (Width.ofSigned_le_eight n)) _
  | uint n => exact number_prints (eight (Width.ofUnsigned_le_eight n)) _
  | enum n => exact number_prints (eight (Width.ofUnsigned_le_eight n.toUInt64)) _
  | bytes type content => exact Write.bytes_prints _
  | _ => cases plain

def setNeed (type : DataType) (value : Primitive) : Nat :=
  match type.setLayout? with
  | some .shortFrame => LengthForm.byte.reserved + value.payload.length
  | some .longFrame => LengthForm.bits16.reserved + value.payload.length
  | _ => (value.setForm type).length

theorem fitsSetType_of_native {value : Primitive} {type : DataType} (plain : value.isPlain)
    (native : value.dataType = type.base) : value.fitsSetType type := by
  cases value with
  | int n => simp [fitsSetType, ← native, dataType]
  | uint n => simp [fitsSetType, ← native, dataType]
  | enum n => exact decide_eq_true native
  | bytes type content => exact decide_eq_true native
  | _ => cases plain

theorem encodeSet_needs {value : Primitive} {type : DataType} (plain : value.isPlain)
    (native : value.dataType = type.base) (fits : value.FitsSet type) :
    Write.Needs (value.encodeSet type) (value.setNeed type) := by
  have emits := encode_prints plain
  unfold encodeSet setNeed setForm
  unfold FitsSet at fits
  cases layout : type.setLayout? with
  | none =>
    rw [layout] at fits
    exact fits.elim
  | some form =>
    rw [layout] at fits
    cases form with
    | shortFrame => exact LengthSlot.around_needs fits emits.emits emits.needs
    | longFrame => exact LengthSlot.around_needs fits emits.emits emits.needs
    | fixed width =>
      -- Among plain values only integers have layouts of a fixed width.
      change value.FitsFixed type width at fits
      unfold FitsFixed at fits
      unfold encodeFixed
      cases value with
      | int n =>
        have base : type.base = .int := native.symm
        have most := width_le_eight layout (.inl base)
        rw [base] at fits ⊢
        refine (Write.Prints.ensure_bind ?_ (Nat.le_of_eq (Bytes.length_ofNat _ _).symm)).needs
        unfold writeFixedSigned
        simp only [if_pos fits]
        exact number_prints most _
      | uint n =>
        have base : type.base = .uint := native.symm
        have most := width_le_eight layout (.inr base)
        rw [base] at fits ⊢
        refine (Write.Prints.ensure_bind ?_ (Nat.le_of_eq (Bytes.length_ofNat _ _).symm)).needs
        unfold writeFixedUnsigned
        simp only [if_pos fits]
        exact number_prints most _
      | enum n =>
        revert layout native
        cases type <;> simp [DataType.setLayout?, DataType.base, dataType]
      | bytes kind content =>
        revert layout native
        cases type <;> cases kind <;>
          simp [DataType.setLayout?, DataType.base, dataType, ByteType.dataType]
      | _ => cases plain

end Primitive

/-! ## Steps -/

namespace Drafting

variable {α β : Type} {step : Drafting α} {need : Nat}

theorem requireIdle_ok (wording : Wording) (output : Output) :
    requireIdle wording ⟨{}, output⟩ = .ok () ⟨{}, output⟩ := rfl

theorem requireEntries_ok (wording : Wording) {session : Session} (phase : session.phase = .entries)
    (output : Output) :
    requireEntries wording ⟨session, output⟩ = .ok () ⟨session, output⟩ := by
  change (if session.phase ≠ .entries then _ else _ : Drafting Unit) ⟨session, output⟩ = _
  rw [if_neg (Decidable.not_not.mpr phase)]
  rfl

theorem requireCount_ok {session : Session} {most : Nat} (more : session.count ≠ most)
    (output : Output) : requireCount most ⟨session, output⟩ = .ok () ⟨session, output⟩ := by
  change (if session.count = most then _ else _ : Drafting Unit) ⟨session, output⟩ = _
  rw [if_neg more]
  rfl

def Needs (session : Session) (step : Drafting α) (need : Nat) : Prop :=
  ∀ output, Program.Needs (fun draft : Draft => draft.output.room) step need ⟨session, output⟩

theorem write_needs {writer : Write α} (needs : writer.Needs need) (session : Session) :
    Needs session (write writer) need := by
  intro output
  have told := needs output
  unfold Program.Needs at *
  cases h : writer output with
  | ok value after =>
    rw [h] at told
    rw [write_ok h]
    exact told
  | error error after =>
    rw [h] at told
    rw [write_error h]
    cases error with
    | bufferTooSmall => exact told
    | _ => exact told.elim

theorem Needs.bind {next : α → Drafting β} {session : Session}
    {post : Nat → α → Session → Bytes → Prop} {length more : Nat} (needs : Needs session step need)
    (extending : Extends session step post)
    (behind : ∀ start value middle added, post start value middle added →
      added.length = length ∧ Needs middle (next value) more) :
    Needs session (step >>= next) (max need (length + more)) := by
  refine fun output => (needs output).bind fun value middle done => ?_
  obtain ⟨capacity, added, bytes, told⟩ := extending.of_ok done
  obtain ⟨size, needsMore⟩ := behind _ _ _ _ told
  exact ⟨size ▸ Output.room_append capacity bytes, needsMore middle.output⟩

theorem whole_needs {opening body ending : Drafting Unit} {width : Nat} {post : Bytes → Prop}
    (fills : Fills ending width)
    (extending : Extends {} (opening >>= fun _ => body) fun start _ session added =>
      session.phase = .entries ∧ ∃ final, session.Seals width start added final ∧ post final)
    (needs : Needs {} (opening >>= fun _ => body) need) :
    (whole (opening >>= fun _ => body >>= fun _ => ending)).Needs need := by
  intro output
  rw [← bind_assoc]
  have told := needs output
  unfold Program.Needs whole at *
  cases h : (opening >>= fun _ => body) ⟨{}, output⟩ with
  | ok value middle =>
    rw [h] at told
    obtain ⟨-, added, bytes, phase, final, seals, -⟩ := extending.of_ok h
    rw [← Output.length_toList] at seals
    obtain ⟨last, after, ended, -⟩ := fills phase bytes seals
    rw [Program.bind_ok h, ended]
    exact told
  | error error middle =>
    rw [h] at told
    rw [Program.bind_error h]
    cases error with
    | bufferTooSmall => exact told
    | _ => exact told.elim

end Drafting

/-! ## Sequences -/

/-- What values need one after another, given what each of them needs and which bytes it leaves
behind. -/
def needInTurn {α : Type} (need : α → Nat) (form : α → Bytes) : List α → Nat
  | [] => 0
  | value :: rest => max (need value) ((form value).length + needInTurn need form rest)

section
variable {α : Type} {need : α → Nat} {form : α → Bytes}

theorem needInTurn_le {values : List α} {slack : Nat}
    (each : ∀ value ∈ values, need value ≤ (form value).length + slack) :
    needInTurn need form values ≤ (values.flatMap form).length + slack := by
  induction values with
  | nil => exact Nat.zero_le _
  | cons value rest ih =>
    obtain ⟨one, others⟩ := List.forall_mem_cons.mp each
    have rest := ih others
    rw [needInTurn, List.flatMap_cons, List.length_append]
    omega

/-- When no value gives back more than the next one needs, only the last one may give something back. -/
theorem needInTurn_concat {values : List α} {last : α} (least : (form last).length ≤ need last)
    (covered : ∀ value ∈ values, ∀ other ∈ values ++ [last],
      need value ≤ (form value).length + need other) :
    needInTurn need form (values ++ [last]) = (values.flatMap form).length + need last := by
  induction values with
  | nil => simp [needInTurn, Nat.max_eq_left least]
  | cons value rest ih =>
    have following := ih fun other member another inside =>
      covered other (List.mem_cons_of_mem _ member) another (List.mem_cons_of_mem _ inside)
    have enough := covered value List.mem_cons_self last (by simp)
    rw [List.cons_append, needInTurn, following, List.flatMap_cons, List.length_append]
    omega

/-- Where the room for values ends, one after another. -/
theorem needInTurn_split {values : List α} {room : Nat}
    (least : ∀ value ∈ values, (form value).length ≤ need value)
    (lack : room < needInTurn need form values) :
    ∃ front value rest, values = front ++ value :: rest ∧ needInTurn need form front ≤ room ∧
      room < (front.flatMap form).length + need value := by
  induction values generalizing room with
  | nil => exact absurd lack (Nat.not_lt_zero _)
  | cons value rest ih =>
    obtain ⟨one, others⟩ := List.forall_mem_cons.mp least
    by_cases own : room < need value
    · exact ⟨[], value, rest, rfl, Nat.zero_le _, by simpa using own⟩
    · rw [needInTurn] at lack
      obtain ⟨front, other, behind, rfl, fits, ends⟩ :=
        @ih (room - (form value).length) others (by omega)
      refine ⟨value :: front, other, behind, rfl, ?_, ?_⟩
      · rw [needInTurn]
        omega
      · rw [List.flatMap_cons, List.length_append]
        omega

end

end MarketWire
