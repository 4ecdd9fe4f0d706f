import MarketWire.Proofs.RecordSteps

/-! Runs of the writer of a record.

A caller may make any calls in any order, and any of them may fail. A journal keeps what the calls that
succeeded have given to the record; the bytes and the session of the writer follow the journal from call
to call, so a record that is ended is read as its journal tells.
-/

set_option autoImplicit false

namespace MarketWire.Record

/-! ## Calls and what they give -/

inductive Call (κ τ : Type) where
  | start
  | add (key : κ) (value : Primitive)
  | addEncoded (key : κ) (tag : τ) (payload : Bytes)
  | openEntry (key : κ) (tag : τ)
  | append (payload : Bytes)
  | closeEntry (commit : Bool)

/-- The values of the set definition, the standard entries and the entry that is open. -/
structure Journal (κ τ : Type) where
  values : List Primitive := []
  items : List (Item κ τ) := []
  opened : Option (Item κ τ) := none
  deriving DecidableEq, Repr

structure Run (κ τ : Type) where
  draft : Draft
  journal : Journal κ τ

section
variable {κ Info Name τ : Type} [format : RecordFormat κ Info Name] [tag : EntryTag κ τ]

def Call.steps [DecidableEq κ] (plan : Plan κ Info) : Call κ τ → Drafting Unit
  | .start => Record.start plan
  | .add key value => Record.add plan key value
  | .addEncoded key own payload => Record.addEncoded plan key (tag.type? own) payload
  | .openEntry key own => Record.openEntry plan key (tag.type? own)
  | .append payload => Drafting.write (Write.bytes payload)
  | .closeEntry commit => Record.closeEntry κ commit

namespace Journal

/-- What a call that succeeds gives. As long as values of the set definition are missing, a value that
is added is one of them. -/
def after (plan : Plan κ Info) (journal : Journal κ τ) : Call κ τ → Journal κ τ
  | .start => journal
  | .add key value =>
    if journal.values.length < plan.setEntries.size then
      { journal with values := journal.values ++ [value] }
    else { journal with items := journal.items ++ [.ofValue key value] }
  | .addEncoded key own payload => { journal with items := journal.items ++ [.ofPayload key own payload] }
  | .openEntry key own => { journal with opened := some ⟨key, own, []⟩ }
  | .append payload =>
    { journal with opened := journal.opened.map fun item => { item with payload := item.payload ++ payload } }
  | .closeEntry commit =>
    { journal with
      items := journal.items ++ if commit then journal.opened.toList else []
      opened := none }

def afterFailure (journal : Journal κ τ) : Call κ τ → Journal κ τ
  | .closeEntry _ => { journal with opened := none }
  | _ => journal

end Journal

namespace Run

def start (output : Output) : Run κ τ := ⟨⟨{}, output⟩, {}⟩

variable [DecidableEq κ] (plan : Plan κ Info)

def call (run : Run κ τ) (call : Call κ τ) : Run κ τ :=
  match call.steps plan run.draft with
  | .ok _ draft => ⟨draft, run.journal.after plan call⟩
  | .error _ draft => ⟨draft, run.journal.afterFailure call⟩

def calls (run : Run κ τ) (calls : List (Call κ τ)) : Run κ τ := calls.foldl (call plan) run

/-- Bytes are appended only to an open entry. No entry of the type without a payload is committed behind
bytes, and none is added as a value. -/
def allows (run : Run κ τ) : Call κ τ → Bool
  | .append _ => run.journal.opened.isSome
  | .closeEntry true => run.journal.opened.all fun item => item.hasPayload || item.payload.isEmpty
  | .add key value =>
    !Program.succeeds (add plan key value) run.draft || (Item.ofValue key value : Item κ τ).hasPayload
  | _ => true

def allowsAll : Run κ τ → List (Call κ τ) → Bool
  | _, [] => true
  | run, call :: calls => run.allows plan call && allowsAll (run.call plan call) calls

end Run

end

section
variable {κ Info Name τ : Type} [format : RecordFormat κ Info Name] [tag : EntryTag κ τ]
  [lawful : LawfulRecordFormat κ Info Name τ] {plan : Plan κ Info} {before : Bytes}
  {values : List Primitive} {items : List (Item κ τ)}

/-! ## Records whose set-defined values are complete -/

namespace Plan

def unsealed (plan : Plan κ Info) (values : List Primitive) (items : List (Item κ τ)) : Bytes :=
  plan.lead values ++ plan.room ++ items.flatMap (·.form)

structure Filled (plan : Plan κ Info) (values : List Primitive) (items : List (Item κ τ)) : Prop
    extends plan.Fits values items where
  complete : values.length = plan.setEntries.size
  alone : ∀ pair ∈ plan.setEntries.toList.zip values, ReadsAlone pair.1 pair.2

theorem Filled.add (filled : plan.Filled values items) (standard : plan.standard)
    (more : items.length ≠ maxCount) {item : Item κ τ} (fits : item.Fits) :
    plan.Filled values (items ++ [item]) where
  head := filled.head
  frame := filled.frame
  standard none := by
    rw [standard] at none
    cases none
  count := by
    have count := filled.count
    rw [List.length_append, List.length_singleton]
    omega
  each := List.forall_mem_append.mpr ⟨filled.each, List.forall_mem_singleton.mpr fits⟩
  complete := filled.complete
  alone := filled.alone

theorem unsealed_add (item : Item κ τ) :
    plan.unsealed values (items ++ [item]) = plan.unsealed values items ++ item.form := by
  simp [unsealed]

end Plan

/-! ## What a run has written -/

/-- The output and the session of a writer are as its journal tells, behind what the output held before.
Only after the values of the set definition could not be closed nothing is known, and nothing follows. -/
inductive Run.Follows (plan : Plan κ Info) (before : Bytes) : Run κ τ → Prop
  | idle {output : Output} (bytes : output.toList = before) : Follows plan before (.start output)
  | setData {start : Nat} {output : Output} {values : List Primitive} (head : plan.HeadFits)
      (active : plan.activeSet.isSome) (more : values.length < plan.setEntries.size)
      (alone : ∀ pair ∈ plan.setEntries.toList.zip values, ReadsAlone pair.1 pair.2)
      (bytes : output.toList = before ++ (plan.head ++ plan.room ++ plan.valuesForm values)) :
      Follows plan before ⟨⟨⟨.setData values.length (plan.slot? before.length), start, none, 0⟩, output⟩,
        ⟨values, [], none⟩⟩
  | spent {draft : Draft} {journal : Journal κ τ} {written : Nat} {slot : Option LengthSlot}
      (phase : draft.session.phase = .setData written slot) (full : plan.setEntries.size ≤ written) :
      Follows plan before ⟨draft, journal⟩
  | entries {start : Nat} {output : Output} {values : List Primitive} {items : List (Item κ τ)}
      (filled : plan.Filled values items)
      (bytes : output.toList = before ++ plan.unsealed values items) :
      Follows plan before ⟨⟨⟨.entries, start, plan.countAt? before.length values, items.length⟩, output⟩,
        ⟨values, items, none⟩⟩
  | entry {start : Nat} {output : Output} {values : List Primitive} {items : List (Item κ τ)}
      {item : Item κ τ} (filled : plan.Filled values items) (standard : plan.standard)
      (more : items.length ≠ maxCount) (key : lawful.KeyFits item.key)
      (bytes : output.toList =
        before ++ plan.unsealed values items ++ (item.label ++ item.room ++ item.payload)) :
      Follows plan before ⟨⟨⟨.entry (before ++ plan.unsealed values items).length
          (item.slot? (before ++ plan.unsealed values items).length),
        start, plan.countAt? before.length values, items.length⟩, output⟩, ⟨values, items, some item⟩⟩

theorem Plan.setEntries_pos (active : plan.activeSet.isSome) : 0 < plan.setEntries.size := by
  obtain ⟨definition, found⟩ := Option.isSome_iff_exists.mp active
  have filled := found
  unfold Plan.activeSet at filled
  have nonempty : ¬ definition.entries.isEmpty := by simpa using (Option.filter_eq_some_iff.mp filled).2
  unfold Plan.setEntries
  rw [found]
  simpa [Array.size_pos_iff] using nonempty

theorem Plan.setEntries_none (inactive : plan.activeSet = none) : plan.setEntries = #[] := by
  unfold Plan.setEntries
  rw [inactive]
  rfl

theorem Plan.zip_add {expected : SetEntry κ} (value : Primitive)
    (next : plan.setEntries[values.length]? = some expected) :
    plan.setEntries.toList.zip (values ++ [value]) =
      plan.setEntries.toList.zip values ++ [(expected, value)] := by
  rw [← Array.getElem?_toList] at next
  generalize plan.setEntries.toList = entries at next
  -- Both lists are taken apart together until the values are used up.
  induction values generalizing entries with
  | nil =>
    cases entries with
    | nil => cases next
    | cons entry entries =>
      cases next
      simp
  | cons first others ih =>
    cases entries with
    | nil => cases next
    | cons entry entries => exact congrArg _ (ih entries next)

theorem Plan.valuesForm_add {expected : SetEntry κ} (value : Primitive)
    (next : plan.setEntries[values.length]? = some expected) :
    plan.valuesForm (values ++ [value]) = plan.valuesForm values ++ value.setForm expected.type := by
  unfold Plan.valuesForm
  rw [Plan.zip_add value next, List.flatMap_append, List.flatMap_singleton]

theorem Plan.Filled.start (inactive : plan.activeSet = none) (head : plan.HeadFits) :
    plan.Filled [] ([] : List (Item κ τ)) where
  head := head
  frame frames := by simp [Plan.framesValues, inactive] at frames
  standard _ := rfl
  count := Nat.zero_le _
  each := by simp
  complete := by simp [Plan.setEntries_none inactive]
  alone := by simp

namespace Run.Follows

theorem of_entries {session : Session} {output : Output} {journal : Journal κ τ}
    (follows : Follows plan before ⟨⟨session, output⟩, journal⟩) (phase : session.phase = .entries) :
    ∃ start, session = ⟨.entries, start, plan.countAt? before.length journal.values,
        journal.items.length⟩ ∧
      journal.opened = none ∧ plan.Filled journal.values journal.items ∧
      output.toList = before ++ plan.unsealed journal.values journal.items := by
  cases follows with
  | entries filled bytes => exact ⟨_, rfl, rfl, filled, bytes⟩
  | spent spent =>
    rw [phase] at spent
    cases spent
  | idle | setData | entry => cases phase

theorem started (fits : plan.HeadFits) {output : Output}
    (bytes : output.toList = before ++ (plan.head ++ plan.room)) :
    Follows plan before ⟨⟨plan.started {} before.length, output⟩, {}⟩ := by
  unfold Plan.started
  cases active : plan.activeSet with
  | none =>
    have lead : plan.lead [] = plan.head := by
      simp [Plan.lead, Plan.setPart, Plan.framesValues, Plan.valuesForm, active]
    have filled : plan.Filled [] ([] : List (Item κ τ)) := .start active fits
    have here := @entries _ _ _ _ _ _ _ plan before before.length output [] [] filled
      (by simpa [Plan.unsealed, lead] using bytes)
    unfold Plan.countAt? at here
    rwa [lead] at here
  | some definition =>
    have active' : plan.activeSet.isSome := by rw [active]; rfl
    have more : ([] : List Primitive).length < plan.setEntries.size := Plan.setEntries_pos active'
    refine setData fits active' more (by simp) ?_
    simpa [Plan.valuesForm] using bytes

theorem entries_add {start count : Nat} {output : Output} {item : Item κ τ}
    (filled : plan.Filled values items) (standard : plan.standard) (more : items.length ≠ maxCount)
    (fits : item.Fits) (counted : count = items.length)
    (bytes : output.toList = before ++ plan.unsealed values items ++ item.form) :
    Follows plan before ⟨⟨⟨.entries, start, plan.countAt? before.length values, count + 1⟩, output⟩,
      ⟨values, items ++ [item], none⟩⟩ := by
  have here := @entries _ _ _ _ _ _ _ plan before start output values (items ++ [item])
    (filled.add standard more fits)
    (by rw [bytes, Plan.unsealed_add, List.append_assoc])
  rwa [List.length_append, List.length_singleton, ← counted] at here

theorem add_item {session : Session} {output after : Output} {journal : Journal κ τ} {item : Item κ τ}
    (follows : Follows plan before ⟨⟨session, output⟩, journal⟩) (accepts : plan.Accepts session)
    (fits : item.Fits) (bytes : after.toList = output.toList ++ item.form) :
    Follows plan before ⟨⟨{ session with count := session.count + 1 }, after⟩,
      { journal with items := journal.items ++ [item] }⟩ := by
  obtain ⟨values, items, opened⟩ := journal
  obtain ⟨start, rfl, rfl, filled, old⟩ := follows.of_entries accepts.phase
  rw [old] at bytes
  exact entries_add filled accepts.standard accepts.more fits rfl bytes

/-- When its last value is written, either the record accepts standard entries, or the values stay
without their length and nothing follows. -/
theorem closeSet_cases {start written : Nat} {output : Output} (head : plan.HeadFits)
    (active : plan.activeSet.isSome) (complete : values.length = plan.setEntries.size)
    (alone : ∀ pair ∈ plan.setEntries.toList.zip values, ReadsAlone pair.1 pair.2)
    (bytes : output.toList = before ++ (plan.head ++ plan.room ++ plan.valuesForm values)) :
    let session : Session := ⟨.setData written (plan.slot? before.length), start, none, 0⟩
    (∃ error after, closeSet plan (plan.slot? before.length) ⟨session, output⟩ =
        .error error ⟨session, after⟩) ∨
      ∃ draft, closeSet plan (plan.slot? before.length) ⟨session, output⟩ = .ok () draft ∧
        Follows plan before (⟨draft, ⟨values, [], none⟩⟩ : Run κ τ) := by
  intro session
  rcases @Record.closeSet_cases _ _ _ _ _ _ _ plan session active before values output bytes rfl with
    failed | ⟨after, closed, afterBytes, frame⟩
  · exact .inl failed
  · have filled : plan.Filled values ([] : List (Item κ τ)) :=
      ⟨⟨head, frame, fun _ => rfl, Nat.zero_le _, by simp⟩, complete, alone⟩
    refine .inr ⟨_, closed, entries filled ?_⟩
    rw [afterBytes, Plan.unsealed, List.flatMap_nil, List.append_nil]

variable [DecidableEq κ] {run : Run κ τ}

theorem of_commits (follows : run.Follows plan before) {call : Call κ τ}
    {post : Nat → Unit → Session → Bytes → Prop}
    (commits : Drafting.Commits run.draft.session (call.steps plan) post)
    (keeps : run.journal.afterFailure call = run.journal)
    (next : Program.succeeds (call.steps plan) run.draft → ∀ session output added,
      post run.draft.output.position () session added →
        output.toList = run.draft.output.toList ++ added →
          Follows plan before ⟨⟨session, output⟩, run.journal.after plan call⟩) :
    (run.call plan call).Follows plan before := by
  unfold Run.call
  cases h : call.steps plan run.draft with
  | error error after =>
    obtain rfl := commits.of_error h
    dsimp only
    rwa [keeps]
  | ok _ after =>
    obtain ⟨-, added, bytes, told⟩ := commits.of_ok h
    exact next (Program.succeeds_of_ok h) _ _ _ told bytes

theorem start (follows : run.Follows plan before) : (run.call plan .start).Follows plan before := by
  refine follows.of_commits start_commits rfl fun _ _ output _ => ?_
  rintro ⟨idle, rfl, rfl, fits⟩ bytes
  -- Nothing has been written before the header.
  cases follows with
  | idle same =>
    subst same
    have here := @started _ _ _ τ _ _ _ plan _ fits output bytes
    rwa [Output.length_toList] at here
  | spent phase =>
    rw [idle] at phase
    cases phase
  | setData | entries | entry => cases idle

theorem addEncoded (follows : run.Follows plan before) (key : κ) (own : τ) (payload : Bytes) :
    (run.call plan (.addEncoded key own payload)).Follows plan before := by
  refine follows.of_commits addEncoded_commits rfl fun _ _ _ _ => ?_
  rintro ⟨accepts, rfl, rfl, fits⟩ bytes
  exact follows.add_item accepts fits bytes

theorem openEntry (follows : run.Follows plan before) (key : κ) (own : τ) :
    (run.call plan (.openEntry key own)).Follows plan before := by
  refine follows.of_commits (openEntry_commits ⟨key, own, []⟩) rfl fun _ _ _ _ => ?_
  rintro ⟨accepts, rfl, rfl, fits⟩ bytes
  obtain ⟨⟨session, output⟩, values, items, opened⟩ := run
  obtain ⟨start, rfl, rfl, filled, old⟩ := follows.of_entries accepts.phase
  dsimp only at bytes ⊢
  rw [old, ← List.append_nil (_ ++ Item.room _)] at bytes
  rw [← Output.length_toList, old]
  exact entry filled accepts.standard accepts.more fits bytes

theorem append (follows : run.Follows plan before) {payload : Bytes}
    (allowed : run.allows plan (.append payload)) :
    (run.call plan (.append payload)).Follows plan before := by
  refine follows.of_commits (Drafting.bytes_commits payload) rfl fun _ _ output _ => ?_
  rintro ⟨rfl, rfl⟩ bytes
  cases follows with
  | idle | setData | entries => cases allowed
  | spent phase full => exact spent phase full
  | @entry _ _ _ _ item filled standard more key old =>
    refine @entry _ _ _ _ _ _ _ plan before _ output _ _ { item with payload := item.payload ++ _ }
      filled standard more key ?_
    rw [bytes, old]
    simp only [List.append_assoc]
    rfl

theorem closeEntry (follows : run.Follows plan before) {commit : Bool}
    (allowed : run.allows plan (.closeEntry commit)) :
    (run.call plan (.closeEntry commit)).Follows plan before := by
  have refused : (∀ start slot, run.draft.session.phase ≠ .entry start slot) →
      run.call plan (.closeEntry commit) = ⟨run.draft, { run.journal with opened := none }⟩ := by
    intro noEntry
    obtain ⟨error, refused⟩ := @closeEntry_refuses κ _ _ _ _ run.draft.output commit noEntry
    unfold Run.call Call.steps
    dsimp only
    rw [refused]
    rfl
  cases follows with
  | idle bytes =>
    rw [refused fun _ _ => Phase.noConfusion]
    exact idle bytes
  | setData head active more alone bytes =>
    rw [refused fun _ _ => Phase.noConfusion]
    exact setData head active more alone bytes
  | spent phase full =>
    rw [refused fun _ _ same => Phase.noConfusion (phase.symm.trans same)]
    exact spent phase full
  | entries filled bytes =>
    rw [refused fun _ _ => Phase.noConfusion]
    exact entries filled bytes
  | @entry start output values items item filled standard more key bytes =>
    let session : Session := ⟨.entries, start, plan.countAt? before.length values, items.length⟩
    unfold Run.call Call.steps
    dsimp only
    cases commit with
    | false =>
      obtain ⟨after, closed, afterBytes⟩ := closeEntry_discards session bytes
      dsimp only [session] at closed
      rw [closed]
      have here := @entries _ _ _ _ _ _ _ plan before start after values items filled afterBytes
      simpa [Journal.after] using here
    | true =>
      have told : item.hasPayload = true ∨ item.payload.isEmpty = true :=
        Bool.or_eq_true_iff.mp allowed
      have empty : item.hasPayload = false → item.payload = [] := fun none =>
        List.isEmpty_iff.mp (told.resolve_left (by rw [none]; decide))
      rcases closeEntry_commits session empty bytes with
        ⟨after, closed, afterBytes, length⟩ | ⟨error, after, failed, afterBytes⟩
      · dsimp only [session] at closed
        rw [closed]
        exact entries_add filled standard more ⟨key, length, empty⟩ rfl afterBytes
      · dsimp only [session] at failed
        rw [failed]
        exact entries filled afterBytes

theorem add_standard (follows : run.Follows plan before) {key : κ} {value : Primitive}
    (behind : ∀ written slot, run.draft.session.phase ≠ .setData written slot)
    (allowed : run.allows plan (.add key value)) :
    (run.call plan (.add key value)).Follows plan before := by
  refine follows.of_commits (add_commits behind) rfl fun done _ _ _ => ?_
  rintro ⟨accepts, rfl, rfl, fits, length⟩ bytes
  have payload : (Item.ofValue key value : Item κ τ).hasPayload := by
    have told : (!Program.succeeds (Record.add plan key value) run.draft ||
        (Item.ofValue key value : Item κ τ).hasPayload) = true := allowed
    rwa [show Program.succeeds (Record.add plan key value) run.draft = true from done, Bool.not_true,
      Bool.false_or] at told
  obtain ⟨-, -, -, filled, -⟩ := follows.of_entries accepts.phase
  have complete : ¬ run.journal.values.length < plan.setEntries.size :=
    Nat.not_lt.mpr (Nat.le_of_eq filled.complete.symm)
  have here := follows.add_item accepts (.of_hasPayload payload fits length)
    (bytes.trans (congrArg _ (Item.form_of_hasPayload payload).symm))
  simpa only [Journal.after, if_neg complete] using here

theorem add_set (follows : run.Follows plan before) {written : Nat} {slot : Option LengthSlot}
    (phase : run.draft.session.phase = .setData written slot) (key : κ) (value : Primitive) :
    (run.call plan (.add key value)).Follows plan before := by
  have same : Record.add plan key value run.draft = addSetEntry plan written slot key value run.draft := by
    obtain ⟨⟨⟨_, _, _, _⟩, output⟩, journal⟩ := run
    dsimp only at phase
    subst phase
    rfl
  unfold Run.call Call.steps
  dsimp only
  rw [same]
  rcases @addSetEntry_cases _ _ _ _ plan run.draft.session _ written slot key value run.draft.output with
    ⟨error, refused⟩ | ⟨expected, after, next, alone, bytes, added⟩
  · rw [refused]
    exact follows
  rw [added]
  cases follows with
  | idle | entries | entry => cases phase
  | spent spent full =>
    obtain ⟨rfl, -⟩ := Phase.setData.inj (spent.symm.trans phase)
    obtain ⟨inside, -⟩ := Array.getElem?_eq_some_iff.mp next
    omega
  | @setData start output values head active more others old =>
    cases phase
    have length : (values ++ [value]).length = values.length + 1 := by simp
    have bytes' : after.toList =
        before ++ (plan.head ++ plan.room ++ plan.valuesForm (values ++ [value])) := by
      rw [bytes, old, Plan.valuesForm_add value next]
      simp only [List.append_assoc]
    have alone' : ∀ pair ∈ plan.setEntries.toList.zip (values ++ [value]), ReadsAlone pair.1 pair.2 := by
      rw [Plan.zip_add value next]
      exact List.forall_mem_append.mpr ⟨others, List.forall_mem_singleton.mpr alone⟩
    simp only [Journal.after, if_pos more]
    -- Only behind the last value are the set-defined values closed.
    by_cases last : values.length + 1 = plan.setEntries.size
    · rw [if_pos last]
      rcases closeSet_cases head active (length.trans last) alone' bytes' with
        ⟨error, spoilt, failed⟩ | ⟨draft, closed, here⟩
      · rw [failed]
        exact spent rfl (Nat.le_of_eq last.symm)
      · rw [closed]
        exact here
    · rw [if_neg last]
      have still : (values ++ [value]).length < plan.setEntries.size := by omega
      have here := @setData _ _ _ _ _ _ _ plan before start after (values ++ [value]) head active
        still alone' bytes'
      rwa [length] at here

/-- A value that a caller adds is the next of the set definition, as long as there is one. -/
theorem add (follows : run.Follows plan before) {key : κ} {value : Primitive}
    (allowed : run.allows plan (.add key value)) :
    (run.call plan (.add key value)).Follows plan before := by
  cases phase : run.draft.session.phase with
  | setData written slot => exact follows.add_set phase key value
  | _ => exact follows.add_standard (fun _ _ same => Phase.noConfusion (phase.symm.trans same)) allowed

/-- One call keeps the output in step with the journal. -/
theorem call (follows : run.Follows plan before) {call : Call κ τ} (allowed : run.allows plan call) :
    (run.call plan call).Follows plan before := by
  cases call with
  | start => exact follows.start
  | add key value => exact follows.add allowed
  | addEncoded key own payload => exact follows.addEncoded key own payload
  | openEntry key own => exact follows.openEntry key own
  | append payload => exact follows.append allowed
  | closeEntry commit => exact follows.closeEntry allowed

theorem calls (follows : run.Follows plan before) {calls : List (Call κ τ)}
    (allowed : run.allowsAll plan calls) : (run.calls plan calls).Follows plan before := by
  induction calls generalizing run with
  | nil => exact follows
  | cons call calls ih =>
    obtain ⟨here, behind⟩ := Bool.and_eq_true_iff.mp allowed
    exact ih (follows.call here) behind

end Run.Follows

/-! ## Ended records -/

theorem Plan.unsealed_seals {start count : Nat} (filled : plan.Filled values items)
    (counted : count = items.length) :
    Session.Seals ⟨.entries, start, plan.countAt? before.length values, count⟩ 2 before.length
      (plan.unsealed values items) (plan.form values items) := by
  subst counted
  unfold Plan.unsealed Plan.form Plan.room Plan.countAt?
  cases standard : plan.standard with
  | false =>
    rw [filled.standard standard]
    simp [Session.Seals]
  | true => exact ⟨plan.lead values, items.flatMap (·.form), rfl, rfl, by simp⟩

/-- A record that is ended is what its journal tells. -/
theorem finish_form {run : Run κ τ} (follows : run.Follows plan before) {final : Draft}
    (ended : finish κ true run.draft = .ok () final) :
    plan.Filled run.journal.values run.journal.items ∧
      final.output.toList = before ++ plan.form run.journal.values run.journal.items := by
  cases follows with
  | idle | setData | entry => cases ended
  | @spent draft journal written slot phase full =>
    obtain ⟨⟨_, _, _, _⟩, _⟩ := draft
    dsimp only at phase
    subst phase
    cases ended
  | @entries start output values items filled bytes =>
    obtain ⟨last, after, done, -, afterBytes⟩ :=
      Drafting.finish_fills (wording κ) 2 rfl bytes (Plan.unsealed_seals filled rfl)
    cases done.symm.trans ended
    exact ⟨filled, afterBytes⟩

/-- A record that is ended is read as its journal tells: its leading entries as they are read from the
bytes of their values, if all of them can be read, and then its standard entries. -/
theorem decode_calls [DecidableEq κ] {output : Output} {calls : List (Call κ τ)}
    (allowed : (Run.start output).allowsAll plan calls) {final : Draft}
    (ended : finish κ true ((Run.start output).calls plan calls).draft = .ok () final)
    {context : Context}
    (known : ∀ definition ∈ plan.activeSet, format.findSet context definition.id = some definition) :
    let journal := ((Run.start output).calls plan calls).journal
    journal.values.length = plan.setEntries.size ∧
      (∀ item ∈ journal.items, item.hasPayload = false → item.payload = []) ∧
      ∃ leading, decode κ context (final.output.toList.drop output.position) =
          .ok ⟨plan.info, plan.activeSet.map (·.id), journal.items.length,
            leading ++ journal.items.map (·.entry context)⟩ ∧
        ∀ entries, (plan.setEntries.toList.zip journal.values).map
            (fun pair => setEntry pair.1 pair.2) = entries.map .ok → leading = entries := by
  intro journal
  have follows := (Run.Follows.idle rfl : (Run.start output).Follows plan output.toList).calls allowed
  obtain ⟨filled, bytes⟩ := finish_form follows ended
  refine ⟨filled.complete, fun item member => (filled.each item member).payload,
    Entries.readEach setStep plan.setEntries.toList (plan.valuesForm journal.values), ?_,
    fun entries read => ?_⟩
  · rw [bytes, ← Output.length_toList, List.drop_left]
    exact decode_form filled.toFits known
  · have keys : (plan.setEntries.toList.zip journal.values).map Prod.fst = plan.setEntries.toList :=
      List.map_fst_zip (Nat.le_of_eq filled.complete.symm)
    have all := readEach_setEntry filled.alone read
    rwa [keys] at all

end

end MarketWire.Record
