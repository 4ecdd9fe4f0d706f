import MarketWire.Proofs.LabelledEntries
import MarketWire.Proofs.Records

/-! Single steps of the writing of a record.

Most steps do all or nothing. Only the last value of a set definition may be written and then fail to
be closed; behind it no step succeeds.
-/

set_option autoImplicit false

namespace MarketWire

namespace Record

section
variable {κ Info Name τ : Type} [format : RecordFormat κ Info Name] [tag : EntryTag κ τ]
  [lawful : LawfulRecordFormat κ Info Name τ] {plan : Plan κ Info} {session : Session}

/-! ## The header -/

def Plan.room (plan : Plan κ Info) : Bytes := if plan.standard then List.replicate 2 0 else []

def Plan.slot? (plan : Plan κ Info) (start : Nat) : Option LengthSlot :=
  if plan.framesValues then some ⟨start + plan.head.length, .bits15⟩ else none

theorem writeSetHead_extends : Write.Extends (match plan.activeSet with
      | some definition => do
        if definition.id ≠ 0 then Varying.write15 definition.id.toNat
        if plan.standard then some <$> LengthSlot.reserve .bits15 else return none
      | none => do
        if plan.standard then
          let _ ← Write.reserve 2
          return none
        else return none : Write (Option LengthSlot)) fun start slot added =>
    slot = (if plan.framesValues then some ⟨start + plan.idForm.length, .bits15⟩ else none) ∧
      added = plan.idForm ++ plan.room ∧
      ∀ definition ∈ plan.activeSet, definition.id.toNat ≤ Varying.max15 := by
  unfold Plan.framesValues Plan.idForm Plan.room
  cases active : plan.activeSet with
  | none =>
    cases plan.standard with
    | false => exact (Write.Extends.pure none).mono fun _ _ _ ⟨same, bytes⟩ => ⟨same, bytes, by simp⟩
    | true =>
      apply ((Write.reserve_extends 2).bind fun _ => Write.Extends.pure none).mono
      rintro _ _ _ ⟨_, _, _, ⟨-, rfl⟩, ⟨rfl, rfl⟩, rfl⟩
      exact ⟨rfl, rfl, by simp⟩
  | some definition =>
    have room : Write.Extends (if plan.standard then some <$> LengthSlot.reserve .bits15 else pure none)
        fun start slot added =>
          slot = (if plan.standard then some ⟨start, .bits15⟩ else none) ∧
            added = if plan.standard then List.replicate 2 0 else [] := by
      cases plan.standard with
      | false => exact Write.Extends.pure none
      | true => exact LengthSlot.some_reserve_extends .bits15
    simp only [Option.elim_some, Option.isSome_some, Bool.true_and, Option.mem_some_iff,
      forall_eq']
    by_cases zero : definition.id = 0
    · simp only [zero, ne_eq, not_true_eq_false, if_false]
      exact room.mono fun _ _ _ ⟨slot, bytes⟩ => ⟨slot, bytes, Nat.zero_le _⟩
    · simp only [ne_eq, zero, not_false_eq_true, if_true]
      apply ((Varying.write15_extends definition.id.toNat).bind fun _ => room).mono
      rintro _ _ _ ⟨_, _, _, ⟨rfl, fits⟩, ⟨rfl, rfl⟩, rfl⟩
      exact ⟨rfl, rfl, fits⟩

theorem writeHeader_extends : Write.Extends plan.writeHeader fun start slot added =>
    slot = plan.slot? start ∧ added = plan.head ++ plan.room ∧ plan.HeadFits := by
  have behind := @writeSetHead_extends κ Info plan
  unfold Plan.writeHeader Plan.slot? Plan.head Plan.infoForm
  cases given : plan.info with
  | none =>
    apply ((Write.byte_emits plan.flags).then_extends fun _ => behind).mono
    rintro _ _ _ ⟨_, ⟨rfl, rfl, id⟩, rfl⟩
    refine ⟨?_, rfl, by simp [given], by simp [given], id⟩
    simp [Nat.add_assoc, Nat.add_comm]
  | some info =>
    apply ((Write.byte_emits plan.flags).then_extends fun _ =>
      (LengthSlot.around_extends .byte (lawful.writeInfo_extends info)).bind fun _ => behind).mono
    rintro _ _ _ ⟨_, ⟨_, _, _, ⟨_, ⟨rfl, fits⟩, length, rfl⟩, ⟨rfl, rfl, id⟩, rfl⟩, rfl⟩
    refine ⟨?_, by simp, by simpa [given], by simpa [given], id⟩
    simp [Nat.add_assoc, Nat.add_comm]

def Plan.started (plan : Plan κ Info) (session : Session) (start : Nat) : Session :=
  match plan.activeSet with
  | some _ => { session with start, phase := .setData 0 (plan.slot? start) }
  | none => { session with start, phase := .entries, countAt :=
      if plan.standard then some (start + plan.head.length) else none }

theorem start_commits : Drafting.Commits session (start plan) fun start _ after added =>
    session.phase = .idle ∧ after = plan.started session start ∧ added = plan.head ++ plan.room ∧
      plan.HeadFits := by
  refine (Drafting.requireIdle_tests _).then_commits fun _ idle output => ?_
  rw [Program.bind_ok Drafting.position_ok]
  cases h : Write.atomic plan.writeHeader output with
  | error error after =>
    have restored := writeHeader_extends.atomic_error h
    rw [Program.bind_error (Drafting.write_error h), restored]
  | ok slot after =>
    obtain ⟨capacity, added, bytes, rfl, rfl, fits⟩ := writeHeader_extends.atomic.of_ok h
    have behind : after.position = output.position + (plan.head.length + plan.room.length) := by
      rw [← Output.length_toList, bytes]
      simp [Output.length_toList]
    rw [Program.bind_ok (Drafting.write_ok h), Program.bind_ok Drafting.position_ok]
    refine ⟨capacity, _, bytes, idle, ?_, rfl, fits⟩
    unfold Plan.started
    unfold Plan.room at behind
    cases active : plan.activeSet with
    | some definition => rfl
    | none =>
      cases standard : plan.standard with
      | false => simp
      | true =>
        simp [behind, standard]
        omega

/-! ## Standard entries -/

structure Plan.Accepts (plan : Plan κ Info) (session : Session) : Prop where
  phase : session.phase = .entries
  standard : plan.standard
  more : session.count ≠ maxCount

theorem requireStandard_tests :
    Drafting.Tests session (requireStandard plan) fun _ => plan.Accepts session := by
  refine (Drafting.requireEntries_tests _).bind fun _ phase => ?_
  cases standard : plan.standard with
  | false => exact fun _ => rfl
  | true => exact (Drafting.requireCount_tests maxCount).mono fun _ more => ⟨phase, standard, more⟩

def Item.ofValue (key : κ) (value : Primitive) : Item κ τ :=
  ⟨key, tag.ofType value.dataType, value.payload⟩

def Item.ofPayload (key : κ) (own : τ) (payload : Bytes) : Item κ τ :=
  ⟨key, own, if Record.hasPayload (tag.type? own) then payload else []⟩

theorem add_commits [DecidableEq κ] {key : κ} {value : Primitive}
    (behind : ∀ written slot, session.phase ≠ .setData written slot) :
    Drafting.Commits session (add plan key value) fun _ _ after added =>
      plan.Accepts session ∧ after = { session with count := session.count + 1 } ∧
        added = (Item.ofValue key value : Item κ τ).label ++ LengthForm.bits16.frame value.payload ∧
        lawful.KeyFits key ∧ value.payload.length ≤ LengthForm.bits16.max := by
  have entry : Write.Extends (do
      writeLabel key (if format.describesItself then some value.dataType else none)
      LengthSlot.around .bits16 value.encode) fun _ _ added =>
        added = (Item.ofValue key value : Item κ τ).label ++ LengthForm.bits16.frame value.payload ∧
        lawful.KeyFits key ∧ value.payload.length ≤ LengthForm.bits16.max := by
    rw [← lawful.type?_ofType]
    apply ((Item.ofValue key value).writeLabel_extends.bind fun _ =>
      LengthSlot.around_extends .bits16 value.encode_emits).mono
    rintro _ _ _ ⟨_, _, _, ⟨rfl, fits⟩, ⟨_, rfl, length, rfl⟩, rfl⟩
    exact ⟨rfl, fits, length⟩
  apply Drafting.session_tests.then_commits
  rintro _ rfl
  split
  · rename_i written slot phase
    exact absurd phase (behind written slot)
  · apply requireStandard_tests.then_commits
    rintro _ accepts
    apply (Drafting.addEntry_commits entry).mono
    rintro _ _ _ _ ⟨same, made⟩
    exact ⟨accepts, same, made⟩

theorem addEncoded_commits {key : κ} {own : τ} {payload : Bytes} :
    Drafting.Commits session (addEncoded plan key (tag.type? own) payload) fun _ _ after added =>
      plan.Accepts session ∧ after = { session with count := session.count + 1 } ∧
        added = (Item.ofPayload key own payload).form ∧ (Item.ofPayload key own payload).Fits := by
  have label := (Item.ofPayload key own payload).writeLabel_extends
  apply (Labelled.add_commits requireStandard_tests label _ payload).mono
  rintro _ _ _ _ ⟨accepts, same, rfl, keyFits, fits⟩
  exact ⟨accepts, same, rfl, keyFits, fits.length, fits.empty⟩

def Item.room (item : Item κ τ) : Bytes :=
  if item.hasPayload then List.replicate LengthForm.bits16.reserved 0 else []

def Item.slot? (item : Item κ τ) (start : Nat) : Option LengthSlot :=
  if item.hasPayload then some ⟨start + item.label.length, .bits16⟩ else none

theorem openEntry_commits (item : Item κ τ) :
    Drafting.Commits session (openEntry plan item.key (tag.type? item.tag)) fun start _ after added =>
      plan.Accepts session ∧ after = { session with phase := .entry start (item.slot? start) } ∧
        added = item.label ++ item.room ∧ lawful.KeyFits item.key := by
  apply (Labelled.openEntry_commits requireStandard_tests item.writeLabel_extends item.hasPayload).mono
  rintro _ _ _ _ ⟨accepts, rfl, rfl, fits⟩
  exact ⟨accepts, rfl, rfl, fits⟩

/-! ## Closing an entry -/

section
variable {item : Item κ τ} {before : Bytes} {output : Output}

theorem closeEntry_refuses (commit : Bool) (noEntry : ∀ start slot, session.phase ≠ .entry start slot) :
    ∃ error, closeEntry κ commit ⟨session, output⟩ = .error error ⟨session, output⟩ := by
  exact Labelled.closeEntry_refuses _ commit noEntry

theorem closeEntry_discards (session : Session)
    (bytes : output.toList = before ++ (item.label ++ item.room ++ item.payload)) :
    ∃ after, closeEntry κ false
        ⟨{ session with phase := .entry before.length (item.slot? before.length) }, output⟩ =
          .ok () ⟨{ session with phase := .entries }, after⟩ ∧ after.toList = before := by
  exact Labelled.closeEntry_discards _ _ bytes

/-- An entry that is too long is dropped. -/
theorem closeEntry_commits (session : Session) (empty : item.hasPayload = false → item.payload = [])
    (bytes : output.toList = before ++ (item.label ++ item.room ++ item.payload)) :
    (∃ after, closeEntry κ true
        ⟨{ session with phase := .entry before.length (item.slot? before.length) }, output⟩ =
          .ok () ⟨{ session with phase := .entries, count := session.count + 1 }, after⟩ ∧
        after.toList = before ++ item.form ∧ item.payload.length ≤ LengthForm.bits16.max) ∨
      ∃ error after, closeEntry κ true
        ⟨{ session with phase := .entry before.length (item.slot? before.length) }, output⟩ =
          .error error ⟨{ session with phase := .entries }, after⟩ ∧ after.toList = before := by
  rcases Labelled.closeEntry_commits _ empty bytes with ⟨after, closed, afterBytes, fits⟩ | failed
  · exact .inl ⟨after, closed, afterBytes, fits.length⟩
  · exact .inr failed

end

/-! ## Set-defined values -/

/-- What follows the last value of a set definition: its length is filled in, and room is kept for the
number of standard entries. -/
def closeSet (plan : Plan κ Info) (slot : Option LengthSlot) : Drafting Unit := do
  match slot with
  | some slot => Drafting.write slot.close
  | none => pure ()
  if plan.standard then
    let position ← Drafting.write (Write.reserve 2)
    Drafting.update ({ · with countAt := some position })
  Drafting.enter .entries

theorem encodeSet_alone (plan : Plan κ Info) (expected : SetEntry κ) (value : Primitive)
    (written : Nat) : Write.Extends (do
      value.encodeSet expected.type
      if written + 1 == plan.setEntries.size && plan.standard then Write.ensure 2) fun _ _ added =>
        added = value.setForm expected.type ∧ ReadsAlone expected value := by
  have room : Write.Emits (if written + 1 == plan.setEntries.size && plan.standard
      then Write.ensure 2 else pure () : Write Unit) [] :=
    Write.Extends.ite (fun _ => Write.ensure_emits 2) fun _ => Write.Emits.pure ()
  apply (Write.Extends.bind ((value.encodeSet_extends expected.type).and
    (value.encodeSet_reads expected.type)) fun _ => room).mono
  rintro _ _ _ ⟨_, _, _, ⟨⟨rfl, -⟩, alone⟩, rfl, rfl⟩
  exact ⟨List.append_nil _, alone⟩

/-- A value is the one that the set definition demands next, and there is room for it. -/
structure Plan.Takes (plan : Plan κ Info) (written : Nat) (key : κ) (value : Primitive) (output : Output)
    (expected : SetEntry κ) : Prop where
  next : plan.setEntries[written]? = some expected
  key : expected.key = key
  type : value.fitsSetType expected.type
  room : Program.succeeds (do
    value.encodeSet expected.type
    if written + 1 == plan.setEntries.size && plan.standard then Write.ensure 2) output

section
variable [DecidableEq κ] {written : Nat} {slot : Option LengthSlot} {key : κ} {value : Primitive}
  {output : Output}

theorem addSetEntry_refuses (other : ∀ expected, ¬ plan.Takes written key value output expected) :
    ∃ error, addSetEntry plan written slot key value ⟨session, output⟩ =
      .error error ⟨session, output⟩ := by
  have entries : (plan.activeSet.map (·.entries)).getD #[] = plan.setEntries := rfl
  unfold addSetEntry
  dsimp only
  rw [entries]
  cases next : plan.setEntries[written]? with
  | none => exact ⟨_, rfl⟩
  | some expected =>
    dsimp only
    by_cases same : expected.key = key
    · by_cases type : value.fitsSetType expected.type
      · rw [if_neg (not_not_intro same), if_neg (not_not_intro type)]
        cases h : Write.atomic (do
            value.encodeSet expected.type
            if written + 1 == plan.setEntries.size && plan.standard then Write.ensure 2) output with
        | error error after =>
          have restored := (encodeSet_alone plan expected value written).atomic_error h
          rw [Program.bind_error (Drafting.write_error h), restored]
          exact ⟨_, rfl⟩
        | ok _ after => exact absurd ⟨next, same, type, Write.succeeds_of_atomic h⟩ (other expected)
      · rw [if_neg (not_not_intro same), if_pos type]
        exact ⟨_, rfl⟩
    · rw [if_pos same]
      exact ⟨_, rfl⟩

theorem addSetEntry_takes {expected : SetEntry κ} (takes : plan.Takes written key value output expected) :
    ∃ after, ReadsAlone expected value ∧ after.capacity = output.capacity ∧
      after.toList = output.toList ++ value.setForm expected.type ∧
      addSetEntry plan written slot key value ⟨session, output⟩ =
        (if written + 1 = plan.setEntries.size then closeSet plan slot else pure ())
          ⟨{ session with phase := .setData (written + 1) slot }, after⟩ := by
  have entries : (plan.activeSet.map (·.entries)).getD #[] = plan.setEntries := rfl
  obtain ⟨_, after, wrote⟩ := Program.exists_of_succeeds takes.room
  have wrote := Write.atomic_ok wrote
  obtain ⟨capacity, added, bytes, rfl, alone⟩ :=
    (encodeSet_alone plan expected value written).atomic.of_ok wrote
  refine ⟨after, alone, capacity, bytes, ?_⟩
  unfold addSetEntry
  dsimp only
  rw [entries, takes.next]
  dsimp only
  rw [if_neg (not_not_intro takes.key), if_neg (not_not_intro takes.type),
    Program.bind_ok (Drafting.write_ok wrote)]
  by_cases last : written + 1 = plan.setEntries.size
  · rw [if_pos last, beq_iff_eq.mpr last]
    rfl
  · rw [if_neg last, beq_eq_false_iff_ne.mpr last]
    rfl

/-- A value of a set definition is refused, or it is written and the last one is followed by the end of
the set-defined values. -/
theorem addSetEntry_cases :
    (∃ error, addSetEntry plan written slot key value ⟨session, output⟩ =
        .error error ⟨session, output⟩) ∨
      ∃ expected after, plan.setEntries[written]? = some expected ∧ ReadsAlone expected value ∧
        after.toList = output.toList ++ value.setForm expected.type ∧
        addSetEntry plan written slot key value ⟨session, output⟩ =
          (if written + 1 = plan.setEntries.size then closeSet plan slot else pure ())
            ⟨{ session with phase := .setData (written + 1) slot }, after⟩ := by
  by_cases taken : ∃ expected, plan.Takes written key value output expected
  · obtain ⟨expected, takes⟩ := taken
    obtain ⟨after, alone, -, bytes, run⟩ := addSetEntry_takes takes
    exact .inr ⟨expected, after, takes.next, alone, bytes, run⟩
  · exact .inl (addSetEntry_refuses (not_exists.mp taken))

end

def Plan.countAt? (plan : Plan κ Info) (start : Nat) (values : List Primitive) : Option Nat :=
  if plan.standard then some (start + (plan.lead values).length) else none

/-- Behind the last value either the record goes on to standard entries or it is never ended. -/
theorem closeSet_cases (active : plan.activeSet.isSome) {before : Bytes} {values : List Primitive}
    {output : Output}
    (bytes : output.toList = before ++ (plan.head ++ plan.room ++ plan.valuesForm values))
    (noCount : session.countAt = none) :
    (∃ error after, closeSet plan (plan.slot? before.length) ⟨session, output⟩ =
        .error error ⟨session, after⟩) ∨
      ∃ after, closeSet plan (plan.slot? before.length) ⟨session, output⟩ =
          .ok () ⟨{ session with phase := .entries, countAt := plan.countAt? before.length values },
            after⟩ ∧
        after.toList = before ++ (plan.lead values ++ plan.room) ∧
        (plan.framesValues → (plan.valuesForm values).length ≤ LengthForm.bits15.max) := by
  unfold Plan.slot? Plan.countAt? Plan.lead Plan.setPart
  have frames : plan.framesValues = plan.standard := by rw [Plan.framesValues, active, Bool.true_and]
  rw [frames]
  unfold Plan.room at bytes ⊢
  unfold closeSet
  cases standard : plan.standard with
  | false =>
    right
    refine ⟨output, ?_, by simpa [standard] using bytes, by simp⟩
    rw [← noCount]
    rfl
  | true =>
    rw [standard, if_pos rfl, ← List.append_assoc, ← List.append_assoc] at bytes
    simp only [if_true]
    rw [← List.length_append]
    rcases @LengthSlot.close_eq .bits15 _ _ _ bytes with ⟨fits, closed, wrote, -, closedBytes⟩ | ⟨-, failed⟩
    · rw [Program.bind_ok (Drafting.write_ok wrote)]
      cases h : Write.reserve 2 closed with
      | error error after =>
        left
        exact ⟨error, after, Program.bind_error (Drafting.write_error h)⟩
      | ok position after =>
        obtain ⟨-, added, afterBytes, rfl, rfl⟩ := (Write.reserve_extends 2).of_ok h
        have position : closed.position = before.length + (plan.head
            ++ LengthForm.bits15.frame (plan.valuesForm values)).length := by
          rw [← Output.length_toList, closedBytes]
          simp
        right
        refine ⟨after, ?_, ?_, fun _ => fits⟩
        · rw [Program.bind_ok (Drafting.write_ok h), ← position]
          rfl
        · rw [afterBytes, closedBytes]
          simp
    · left
      exact ⟨_, _, Program.bind_error (Drafting.write_error failed)⟩

end

end Record

end MarketWire
