import MarketWire.Container.Plan
import MarketWire.Proofs.ArrayRuns
import MarketWire.Proofs.FilterLists
import MarketWire.Proofs.RecordSteps
import MarketWire.Proofs.TableRuns

/-! The writers of all containers, call by call.

A caller gives a container its entries under labels, as a whole or in place; records and arrays take
single values as well, and tables have a summary that is written in place. Here the calls are told once
for all kinds of containers, with what they append and what becomes of the session.
-/

set_option autoImplicit false

namespace MarketWire

/-! ## Positions -/

def Phase.Behind (n : Nat) : Phase → Prop
  | .summary slot | .setData _ slot => ∀ place ∈ slot, n ≤ place.start
  | .entry start slot => n ≤ start ∧ ∀ place ∈ slot, n ≤ place.start
  | .idle | .entries | .done => True

/-- All positions that a session remembers lie behind the first so many bytes. Before its start it
remembers none. -/
structure Session.Behind (session : Session) (n : Nat) : Prop where
  start : session.phase ≠ .idle → n ≤ session.start
  countAt : ∀ position ∈ session.countAt, n ≤ position
  phase : session.phase.Behind n

structure Session.Begins (session : Session) (start : Nat) (after : Session) : Prop where
  idle : session.phase = .idle
  begun : after.phase ≠ .idle
  here : after.start = start
  behind : ∀ n ≤ start, session.Behind n → after.Behind n

theorem Session.Begins.of_entries {session : Session} {start : Nat} {countAt : Option Nat}
    (idle : session.phase = .idle) (room : ∀ position ∈ countAt, start ≤ position) :
    session.Begins start { session with start, phase := .entries, countAt } where
  idle
  begun := nofun
  here := rfl
  behind _ few _ := ⟨fun _ => few, fun position told => Nat.le_trans few (room position told), trivial⟩

namespace ContainerPlan

/-! ## Calls -/

/-- What an entry tells before its payload. The items of arrays tell nothing and are never open. -/
@[reducible] def Label : ContainerPlan → Type
  | .fieldList _ => Int16
  | .elementList _ => String × DataType
  | .series _ => Unit
  | .vector _ => Vector.Label
  | .filterList _ => FilterList.Label
  | .itemArray _ => Empty

@[reducible] def Key : ContainerPlan → Type
  | .fieldList _ => Int16
  | .elementList _ => String
  | .itemArray _ => Unit
  | .series _ | .vector _ | .filterList _ => Empty

@[reducible] def Closing : ContainerPlan → Type
  | .series _ | .vector _ => Bool
  | .fieldList _ | .elementList _ | .filterList _ | .itemArray _ => Empty

def add : (plan : ContainerPlan) → plan.Label → Bytes → Drafting Unit
  | .fieldList plan, fid, payload => FieldList.addEncoded plan fid payload
  | .elementList plan, (name, type), payload => ElementList.addEncoded plan name type payload
  | .series plan, _, payload => Series.add plan payload
  | .vector plan, label, payload => Vector.add plan label.index label.action label.permission payload
  | .filterList plan, label, payload =>
    FilterList.add plan label.id label.action label.type label.permission payload
  | .itemArray _, label, _ => nomatch label

def openEntry : (plan : ContainerPlan) → plan.Label → Drafting Unit
  | .fieldList plan, fid => FieldList.openEntry plan fid
  | .elementList plan, (name, type) => ElementList.openEntry plan name type
  | .series plan, _ => Series.openEntry plan
  | .vector plan, label => Vector.openEntry plan label.index label.action label.permission
  | .filterList plan, label =>
    FilterList.openEntry plan label.id label.action label.type label.permission
  | .itemArray _, label => nomatch label

def addValue : (plan : ContainerPlan) → plan.Key → Primitive → Drafting Unit
  | .fieldList plan, fid, value => FieldList.add plan fid value
  | .elementList plan, name, value => ElementList.add plan name value
  | .itemArray plan, _, value => ItemArray.add plan value
  | .series _, key, _ | .vector _, key, _ | .filterList _, key, _ => nomatch key

def closeSummary : (plan : ContainerPlan) → plan.Closing → Drafting Unit
  | .series plan, commit | .vector plan, commit => Table.closeSummary plan commit
  | .fieldList _, how | .elementList _, how | .filterList _, how | .itemArray _, how => nomatch how

/-- A call of the writer of a container. Bytes are appended by the caller, to whatever is open. -/
inductive Call (plan : ContainerPlan) where
  | start
  | closeSummary (how : plan.Closing)
  | addValue (key : plan.Key) (value : Primitive)
  | add (label : plan.Label) (payload : Bytes)
  | openEntry (label : plan.Label)
  | append (payload : Bytes)
  | closeEntry (commit : Bool)
  | finish (commit : Bool)

def Call.steps {plan : ContainerPlan} : Call plan → Drafting Unit
  | .start => plan.start
  | .closeSummary how => plan.closeSummary how
  | .addValue key value => plan.addValue key value
  | .add label payload => plan.add label payload
  | .openEntry label => plan.openEntry label
  | .append payload => Drafting.write (Write.bytes payload)
  | .closeEntry commit => plan.closeEntry commit
  | .finish commit => plan.finish commit

/-! ## Entries -/

def carries : (plan : ContainerPlan) → plan.Label → Bool
  | .fieldList _, _ => true
  | .elementList _, (_, type) => Record.hasPayload (some type)
  | .series plan, _ => plan.hasPayload
  | .vector plan, label => Vector.hasPayload plan label.action
  | .filterList _, label => FilterList.hasPayload label.action label.type
  | .itemArray _, label => nomatch label

def labelForm : (plan : ContainerPlan) → plan.Label → Bytes
  | .fieldList _, fid => Record.Item.label (⟨fid, (), []⟩ : Record.Item Int16 Unit)
  | .elementList _, (name, type) => Record.Item.label (⟨name, type, []⟩ : Record.Item String DataType)
  | .series _, _ => []
  | .vector _, label => label.form
  | .filterList plan, label => label.form plan
  | .itemArray _, label => nomatch label

variable {plan : ContainerPlan} {session : Session}

open Labelled in
theorem add_commits (label : plan.Label) (payload : Bytes) :
    Drafting.Commits session (plan.add label payload) fun _ _ after added =>
      session.phase = .entries ∧ after = { session with count := session.count + 1 } ∧
        added = plan.labelForm label ++
          payloadForm (plan.carries label) (keptPayload (plan.carries label) payload) := by
  cases plan with
  | fieldList plan =>
    apply (@Record.addEncoded_commits Int16 _ _ _ _ _ _ plan session label () payload).mono
    rintro _ _ _ _ ⟨accepts, rfl, rfl, -⟩
    exact ⟨accepts.phase, rfl, rfl⟩
  | elementList plan =>
    obtain ⟨name, type⟩ := label
    apply (@Record.addEncoded_commits String _ _ _ _ _ _ plan session name type payload).mono
    rintro _ _ _ _ ⟨accepts, rfl, rfl, -⟩
    exact ⟨accepts.phase, rfl, rfl⟩
  | series plan =>
    apply (@Format.Lawful.add_commits _ _ (Series.format plan) _ session label payload).mono
    rintro _ _ _ _ ⟨accepts, rfl, rfl, -⟩
    exact ⟨accepts.phase, rfl, rfl⟩
  | vector plan =>
    apply (@Format.Lawful.add_commits _ _ (Vector.format plan) _ session label payload).mono
    rintro _ _ _ _ ⟨accepts, rfl, rfl, -⟩
    exact ⟨accepts.phase, rfl, rfl⟩
  | filterList plan =>
    apply (@Format.Lawful.add_commits _ _ (FilterList.format plan) _ session label payload).mono
    rintro _ _ _ _ ⟨accepts, rfl, rfl, -⟩
    exact ⟨accepts.phase, rfl, rfl⟩
  | itemArray plan => exact nomatch label

open Labelled in
def opened (plan : ContainerPlan) (session : Session) (start : Nat) (label : plan.Label) : Session :=
  let slot := payloadSlot? (plan.carries label) (start + (plan.labelForm label).length)
  { session with phase := .entry start slot }

open Labelled in
theorem openEntry_commits (label : plan.Label) :
    Drafting.Commits session (plan.openEntry label) fun start _ after added =>
      session.phase = .entries ∧ after = plan.opened session start label ∧
        added = plan.labelForm label ++ payloadRoom (plan.carries label) := by
  cases plan with
  | fieldList plan =>
    apply (@Record.openEntry_commits Int16 _ _ _ _ _ _ plan session ⟨label, (), []⟩).mono
    rintro _ _ _ _ ⟨accepts, rfl, rfl, -⟩
    exact ⟨accepts.phase, rfl, rfl⟩
  | elementList plan =>
    obtain ⟨name, type⟩ := label
    apply (@Record.openEntry_commits String _ _ _ _ _ _ plan session ⟨name, type, []⟩).mono
    rintro _ _ _ _ ⟨accepts, rfl, rfl, -⟩
    exact ⟨accepts.phase, rfl, rfl⟩
  | series plan =>
    apply (@Format.Lawful.openEntry_commits _ _ (Series.format plan) _ session label).mono
    rintro _ _ _ _ ⟨accepts, rfl, rfl, -⟩
    exact ⟨accepts.phase, rfl, rfl⟩
  | vector plan =>
    apply (@Format.Lawful.openEntry_commits _ _ (Vector.format plan) _ session label).mono
    rintro _ _ _ _ ⟨accepts, rfl, rfl, -⟩
    exact ⟨accepts.phase, rfl, rfl⟩
  | filterList plan =>
    apply (@Format.Lawful.openEntry_commits _ _ (FilterList.format plan) _ session label).mono
    rintro _ _ _ _ ⟨accepts, rfl, rfl, -⟩
    exact ⟨accepts.phase, rfl, rfl⟩
  | itemArray plan => exact nomatch label

/-! ## Single values -/

def valueForm : (plan : ContainerPlan) → plan.Key → Primitive → Bytes
  | .fieldList plan, fid, value =>
    labelForm (.fieldList plan) fid ++ LengthForm.bits16.frame value.payload
  | .elementList plan, name, value =>
    labelForm (.elementList plan) (name, value.dataType) ++ LengthForm.bits16.frame value.payload
  | .itemArray plan, _, value => ItemArray.itemForm plan value
  | .series _, key, _ | .vector _, key, _ | .filterList _, key, _ => nomatch key

def FillsSet (session : Session) : ContainerPlan → Prop
  | .fieldList _ | .elementList _ => ∃ written slot, session.phase = .setData written slot
  | .series _ | .vector _ | .filterList _ | .itemArray _ => False

/-- Behind the set-defined values a value is added as a whole, or nothing is. -/
theorem addValue_commits (key : plan.Key) (value : Primitive) (behind : ¬ plan.FillsSet session) :
    Drafting.Commits session (plan.addValue key value) fun _ _ after added =>
      session.phase = .entries ∧ after = { session with count := session.count + 1 } ∧
        added = plan.valueForm key value := by
  cases plan with
  | fieldList plan =>
    apply (@Record.add_commits Int16 _ _ _ _ _ _ plan session _ key value
      fun written slot phase => behind ⟨written, slot, phase⟩).mono
    rintro _ _ _ _ ⟨accepts, rfl, rfl, -⟩
    exact ⟨accepts.phase, rfl, rfl⟩
  | elementList plan =>
    apply (@Record.add_commits String _ _ _ _ _ _ plan session _ key value
      fun written slot phase => behind ⟨written, slot, phase⟩).mono
    rintro _ _ _ _ ⟨accepts, rfl, rfl, -⟩
    exact ⟨accepts.phase, rfl, rfl⟩
  | itemArray plan =>
    apply (@ItemArray.add_commits_of plan value _ _ (fun kind => ItemArray.writeItem_form kind)
      session).mono
    rintro _ _ _ _ ⟨⟨entries, -⟩, rfl, rfl, -⟩
    exact ⟨entries, rfl, rfl⟩
  | series | vector | filterList => exact nomatch key

/-! ## Headers -/

theorem record_begins {κ Info Name τ : Type} [RecordFormat κ Info Name] [Record.EntryTag κ τ]
    [Record.LawfulRecordFormat κ Info Name τ] (plan : Record.Plan κ Info) :
    Drafting.Commits session (Record.start plan) fun start _ after _ => session.Begins start after := by
  apply Record.start_commits.mono
  rintro start _ _ _ ⟨idle, rfl, -⟩
  unfold Record.Plan.started
  cases plan.activeSet with
  | none =>
    refine .of_entries idle fun position told => ?_
    split at told <;> cases told
    exact Nat.le_add_right _ _
  | some definition =>
    refine ⟨idle, nofun, rfl, fun n few behind => ⟨fun _ => few, behind.countAt, fun place told => ?_⟩⟩
    unfold Record.Plan.slot? at told
    split at told <;> cases told
    exact Nat.le_trans few (Nat.le_add_right _ _)

theorem table_begins (plan : Table.Plan) :
    Drafting.Commits session (Table.start plan) fun start _ after _ => session.Begins start after := by
  cases summary : plan.summary with
  | false =>
    apply (Table.start_commits summary).mono
    rintro start _ _ _ ⟨idle, -, -, rfl⟩
    refine .of_entries idle ?_
    rintro _ ⟨⟩
    exact Nat.le_add_right _ _
  | true =>
    apply (Table.start_summary_commits summary).mono
    rintro start _ _ _ ⟨idle, -, -, rfl⟩
    refine ⟨idle, nofun, rfl, fun n few behind => ⟨fun _ => few, behind.countAt, ?_⟩⟩
    rintro _ ⟨⟩
    exact Nat.le_trans few (Nat.le_add_right _ _)

theorem start_commits :
    Drafting.Commits session plan.start fun start _ after _ => session.Begins start after := by
  cases plan with
  | fieldList plan => exact record_begins plan
  | elementList plan => exact record_begins plan
  | series plan | vector plan => exact table_begins plan
  | filterList plan =>
    apply FilterList.start_commits.mono
    rintro start _ _ _ ⟨idle, -, -, rfl⟩
    refine .of_entries idle ?_
    rintro _ ⟨⟩
    exact Nat.le_add_right _ _
  | itemArray plan =>
    apply ItemArray.start_commits.mono
    rintro start _ _ _ ⟨idle, -, -, rfl⟩
    refine .of_entries idle ?_
    rintro _ ⟨⟩
    exact Nat.le_add_right _ _

/-! ## Endings -/

theorem closeSummary_refuses (how : plan.Closing)
    (closed : ∀ slot, session.phase ≠ .summary (some slot)) (output : Output) :
    ∃ error, plan.closeSummary how ⟨session, output⟩ = .error error ⟨session, output⟩ := by
  cases plan with
  | series plan | vector plan => exact Table.closeSummary_refuses how closed output
  | fieldList | elementList | filterList | itemArray => exact nomatch how

theorem closeEntry_eq (plan : ContainerPlan) (commit : Bool) :
    ∃ wording, plan.closeEntry commit = Drafting.closeEntry wording commit := by
  cases plan <;> exact ⟨_, rfl⟩

/-! ## Calls that close nothing -/

namespace Call

def closes : Call plan → Bool
  | .closeEntry _ | .finish _ => true
  | _ => false

def IsPlain (session : Session) : Call plan → Prop
  | .closeEntry _ | .finish _ => False
  | .closeSummary _ => ∀ slot, session.phase ≠ .summary (some slot)
  | .addValue _ _ => ¬ plan.FillsSet session
  | .start | .add _ _ | .openEntry _ | .append _ => True

theorem IsPlain.of_phase {call : Call plan} (opens : call.closes = false)
    (noSummary : ∀ slot, session.phase ≠ .summary (some slot))
    (noSet : ∀ written slot, session.phase ≠ .setData written slot) : call.IsPlain session := by
  cases call with
  | start | add | openEntry | append => exact trivial
  | closeSummary => exact noSummary
  | addValue =>
    intro fills
    cases plan with
    | fieldList | elementList =>
      obtain ⟨written, slot, phase⟩ := fills
      exact noSet written slot phase
    | series | vector | filterList | itemArray => exact fills
  | closeEntry | finish => cases opens

def Leads (session : Session) (start : Nat) (after : Session) : Call plan → Prop
  | .start => session.Begins start after
  | .add _ _ | .addValue _ _ =>
    session.phase = .entries ∧ after = { session with count := session.count + 1 }
  | .openEntry label => session.phase = .entries ∧ after = plan.opened session start label
  | .append _ => after = session
  | .closeSummary _ | .closeEntry _ | .finish _ => False

/-- A call that closes nothing does all of its work or nothing. -/
theorem steps_commits {call : Call plan} (plain : call.IsPlain session) :
    Drafting.Commits session call.steps fun start _ after _ => call.Leads session start after := by
  cases call with
  | start => exact start_commits
  | closeSummary how =>
    intro output
    obtain ⟨error, refused⟩ := closeSummary_refuses how plain output
    rw [Call.steps, refused]
  | addValue key value =>
    apply (addValue_commits key value plain).mono
    rintro _ _ _ _ ⟨entries, same, -⟩
    exact ⟨entries, same⟩
  | add label payload =>
    apply (add_commits label payload).mono
    rintro _ _ _ _ ⟨entries, same, -⟩
    exact ⟨entries, same⟩
  | openEntry label =>
    apply (openEntry_commits label).mono
    rintro _ _ _ _ ⟨entries, same, -⟩
    exact ⟨entries, same⟩
  | append payload =>
    apply (Drafting.bytes_commits payload).mono
    rintro _ _ _ _ ⟨same, -⟩
    exact same
  | closeEntry | finish => exact plain.elim

end Call

end ContainerPlan

end MarketWire
