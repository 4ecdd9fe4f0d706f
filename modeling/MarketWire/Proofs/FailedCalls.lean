import MarketWire.Proofs.Writers

/-! Calls that fail.

A call that fails leaves no trace, neither in the bytes nor in the answers to later calls, unless it had
to end a part that was open: the summary of a table, or the set-defined values of a record with the last
of them. Such a part stays ended even if what follows it cannot be written.
-/

set_option autoImplicit false

namespace MarketWire

open Program (Fails)

/-! ## Errors of writers -/

namespace Write

def Avoids {α : Type} (reason : String) (writer : Write α) : Prop :=
  ∀ output, Fails (fun error _ => error ≠ .invalidState reason) writer output

variable {α β : Type} {reason : String} {writer : Write α}

theorem Avoids.bind {next : α → Write β} (first : Avoids reason writer)
    (behind : ∀ value, Avoids reason (next value)) : Avoids reason (writer >>= next) :=
  fun output => (first output).bind fun value middle _ => behind value middle

theorem Avoids.atomic (avoids : Avoids reason writer) : Avoids reason (Write.atomic writer) := by
  intro output error left h
  unfold Write.atomic atomicFrom at h
  cases h' : writer output with
  | ok value middle =>
    rw [h'] at h
    cases h
  | error cause middle =>
    rw [h'] at h
    cases h
    exact avoids output error middle h'

theorem bytes_avoids (added : Bytes) : Avoids reason (bytes added) := by
  rintro ⟨written, capacity, fits⟩ error left h
  unfold bytes at h
  dsimp only at h
  split at h <;> cases h
  intro same
  cases same

theorem reserve_avoids (count : Nat) : Avoids reason (reserve count) := by
  have room : Avoids reason (ensure count) := by
    intro output error left h
    unfold ensure at h
    split at h <;> cases h
    exact nofun
  have position : Avoids reason position := nofun
  exact position.bind fun start => room.bind fun _ =>
    (bytes_avoids _).bind fun _ output => Fails.pure start

theorem patch_avoids (start : Nat) (replacement : Bytes) (other : reason ≠ "patch outside written region") :
    Avoids reason (patch start replacement) := by
  rintro ⟨written, capacity, fits⟩ error left h
  unfold patch at h
  dsimp only at h
  split at h <;> cases h
  exact fun same => other (EncodeError.invalidState.inj same).symm

theorem shiftLeft_avoids (start count : Nat) (other : reason ≠ "shift outside written region") :
    Avoids reason (shiftLeft start count) := by
  rintro ⟨written, capacity, fits⟩ error left h
  unfold shiftLeft at h
  dsimp only at h
  split at h <;> cases h
  exact fun same => other (EncodeError.invalidState.inj same).symm

end Write

theorem LengthSlot.close_avoids {reason : String} (noPatch : reason ≠ "patch outside written region")
    (noShift : reason ≠ "shift outside written region") (slot : LengthSlot) :
    Write.Avoids reason slot.close := by
  have counted : Write.Avoids reason slot.payloadLength := nofun
  refine counted.bind fun length => ?_
  by_cases fits : length ≤ slot.form.max
  · rw [if_pos fits]
    exact (Write.patch_avoids _ _ noPatch).bind fun _ => Write.shiftLeft_avoids _ _ noShift
  · rw [if_neg fits]
    exact fun output => Fails.throw nofun

theorem Table.writeTail_avoids (plan : Table.Plan) (reason : String) :
    Write.Avoids reason plan.writeTail := by
  unfold Plan.writeTail
  cases plan.countHint with
  | none => exact Write.reserve_avoids 2
  | some hint =>
    refine Write.Avoids.bind ?_ fun _ => Write.reserve_avoids 2
    unfold Varying.write30
    by_cases small : hint.toNat ≤ Varying.max30
    · rw [if_pos small]
      exact Write.bytes_avoids _
    · rw [if_neg small]
      exact fun output => Fails.throw nofun

/-! ## Parts that end -/

/-- A failure that leaves a session behind and does not say that the step was refused for a reason. -/
def Session.FailsOn (session : Session) (reason : String) (error : EncodeError) (left : Draft) : Prop :=
  left.session = session ∧ error ≠ .invalidState reason

theorem Drafting.write_fails {α β : Type} {reason : String} {writer : Write α} {next : α → Drafting β}
    {session : Session} (avoids : Write.Avoids reason writer)
    (behind : ∀ value output, Fails (session.FailsOn reason) (next value) ⟨session, output⟩)
    (output : Output) :
    Fails (session.FailsOn reason) (Drafting.write writer >>= next) ⟨session, output⟩ := by
  cases h : writer output with
  | ok value middle =>
    rw [Fails, Program.bind_ok (Drafting.write_ok h)]
    exact behind value middle
  | error cause middle =>
    rw [Fails, Program.bind_error (Drafting.write_error h)]
    rintro _ _ ⟨⟩
    exact ⟨rfl, avoids output cause middle h⟩

theorem Drafting.update_fails {change : Session → Session} {post : EncodeError → Draft → Prop}
    (draft : Draft) : Fails post (Drafting.update change) draft := by
  rintro _ _ ⟨⟩

namespace Table

def noSummary : String := "no summary data open"

/-- A summary that was open is closed even if the step fails. -/
theorem closeSummary_fails (plan : Plan) (commit : Bool) {session : Session} {slot : LengthSlot}
    (opened : session.phase = .summary (some slot)) (output : Output) :
    Fails (Session.FailsOn { session with phase := .summary none } noSummary)
      (closeSummary plan commit) ⟨session, output⟩ := by
  obtain ⟨_, start, countAt, count⟩ := session
  cases opened
  have tail : ∀ output, Fails (Session.FailsOn ⟨.summary none, start, countAt, count⟩ noSummary) (do
      let countAt ← Drafting.write (Write.atomic plan.writeTail)
      Drafting.update fun session => { session with phase := .entries, countAt := some countAt })
      ⟨⟨.summary none, start, countAt, count⟩, output⟩ :=
    Drafting.write_fails (writeTail_avoids plan noSummary).atomic fun _ _ => Drafting.update_fails _
  cases commit with
  | true =>
    have closed := @LengthSlot.close_avoids noSummary (by simp [noSummary]) (by simp [noSummary]) slot
    exact Drafting.write_fails closed (fun _ => tail) output
  | false =>
    have flags : Write.Avoids noSummary (Write.patch start [{ plan with summary := false }.flags]) :=
      Write.patch_avoids _ _ (by simp [noSummary])
    have abandoned : Write.Avoids noSummary slot.abandon := by
      rintro _ _ _ ⟨⟩
    exact Drafting.write_fails abandoned (fun _ => Drafting.write_fails flags fun _ => tail) output

theorem closeSummary_closed (plan : Plan) (commit : Bool) {draft : Draft}
    (closed : draft.session.phase = .summary none) :
    closeSummary plan commit draft = .error (.invalidState noSummary) draft := by
  obtain ⟨⟨_, start, countAt, count⟩, output⟩ := draft
  cases closed
  rfl

end Table

namespace Record

def exhausted : String := "set definition exhausted"

section
variable {κ Info Name : Type} [RecordFormat κ Info Name] {plan : Plan κ Info}

def Plan.EndsSet (plan : Plan κ Info) (key : κ) (value : Primitive) (draft : Draft) : Prop :=
  ∃ written slot expected, draft.session.phase = .setData written slot ∧
    written + 1 = plan.setEntries.size ∧ plan.Takes written key value draft.output expected

/-- Where the set-defined values cannot be ended, they stay complete. -/
theorem closeSet_fails {session : Session} {written : Nat} {slot : Option LengthSlot}
    (phase : session.phase = .setData written slot) (output : Output) :
    Fails (session.FailsOn exhausted) (closeSet plan slot) ⟨session, output⟩ := by
  have count : ∀ output, Fails (session.FailsOn exhausted) (do
      if plan.standard then
        let position ← Drafting.write (Write.reserve 2)
        Drafting.update ({ · with countAt := some position })
      Drafting.enter .entries) ⟨session, output⟩ := by
    cases plan.standard with
    | true =>
      refine Drafting.write_fails (Write.reserve_avoids 2) fun _ _ => ?_
      exact (Drafting.update_fails _).bind fun _ _ _ => Drafting.update_fails _
    | false => exact fun output => @Drafting.update_fails ({ · with phase := .entries }) _ ⟨session, output⟩
  cases slot with
  | some slot =>
    have closed := @LengthSlot.close_avoids exhausted (by simp [exhausted]) (by simp [exhausted]) slot
    exact Drafting.write_fails closed (fun _ => count) output
  | none => exact count output

variable [DecidableEq κ] {key : κ} {value : Primitive} {draft : Draft}

theorem add_exhausted {slot : Option LengthSlot}
    (phase : draft.session.phase = .setData plan.setEntries.size slot) :
    add plan key value draft = .error (.invalidState exhausted) draft := by
  obtain ⟨⟨_, start, countAt, count⟩, output⟩ := draft
  cases phase
  change addSetEntry plan plan.setEntries.size slot key value _ = _
  have entries : (plan.activeSet.map (·.entries)).getD #[] = plan.setEntries := rfl
  unfold addSetEntry
  dsimp only
  rw [entries, Array.getElem?_eq_none (Nat.le_refl _)]
  rfl

/-- The last value of a set definition stays written even if the step fails. -/
theorem add_fails (ends : plan.EndsSet key value draft) :
    Fails (fun error left => (∃ slot, left.session.phase = .setData plan.setEntries.size slot) ∧
      error ≠ .invalidState exhausted) (add plan key value) draft := by
  obtain ⟨written, slot, expected, phase, last, takes⟩ := ends
  obtain ⟨⟨_, start, countAt, count⟩, output⟩ := draft
  cases phase
  obtain ⟨after, -, -, -, run⟩ := addSetEntry_takes takes
  intro error left failed
  change addSetEntry plan written slot key value _ = _ at failed
  rw [run, if_pos last] at failed
  obtain ⟨session, other⟩ := closeSet_fails rfl after error left failed
  exact ⟨⟨slot, by rw [session, last]⟩, other⟩

theorem add_restores {τ : Type} [EntryTag κ τ] [LawfulRecordFormat κ Info Name τ]
    (more : ¬ plan.EndsSet key value draft) {error : EncodeError} {left : Draft}
    (failed : add plan key value draft = .error error left) : left = draft := by
  by_cases set : ∃ written slot, draft.session.phase = .setData written slot
  · obtain ⟨written, slot, phase⟩ := set
    obtain ⟨⟨_, start, countAt, count⟩, output⟩ := draft
    cases phase
    change addSetEntry plan written slot key value _ = _ at failed
    by_cases taken : ∃ expected, plan.Takes written key value output expected
    · obtain ⟨expected, takes⟩ := taken
      obtain ⟨after, -, -, -, run⟩ := addSetEntry_takes takes
      have others : written + 1 ≠ plan.setEntries.size :=
        fun last => more ⟨written, slot, expected, rfl, last, takes⟩
      rw [run, if_neg others] at failed
      cases failed
    · obtain ⟨cause, run⟩ := addSetEntry_refuses (not_exists.mp taken)
      rw [run] at failed
      cases failed
      rfl
  · exact (add_commits fun written slot phase => set ⟨written, slot, phase⟩).of_error failed

end

end Record

namespace ContainerPlan

/-! ## Traces -/

def EndsSet : (plan : ContainerPlan) → plan.Key → Primitive → Draft → Prop
  | .fieldList plan, fid, value, draft => plan.EndsSet fid value draft
  | .elementList plan, name, value, draft => plan.EndsSet name value draft
  | .itemArray _, _, _, _ => False
  | .series _, key, _, _ | .vector _, key, _, _ | .filterList _, key, _, _ => nomatch key

namespace Call

variable {plan : ContainerPlan}

/-- The call ends a part that was open, whatever becomes of it: the summary, or the set-defined values
with the last of them. -/
def EndsPart : Call plan → Draft → Prop
  | .closeSummary _, draft => ∃ slot, draft.session.phase = .summary (some slot)
  | .addValue key value, draft => plan.EndsSet key value draft
  | _, _ => False

def answers : List (Call plan) → Draft → List (Except EncodeError Unit × Bytes)
  | [], _ => []
  | call :: calls, draft => match call.steps draft with
    | .ok _ after => (.ok (), after.output.toList) :: answers calls after
    | .error error after => (.error error, after.output.toList) :: answers calls after

/-- A call leaves no trace: the bytes are as before, and all later calls are answered as if it had not
been made. -/
structure LeavesNoTrace (call : Call plan) (draft : Draft) : Prop where
  bytes : (Program.after call.steps draft).output.toList = draft.output.toList
  later : ∀ calls : List (Call plan), answers calls (Program.after call.steps draft) = answers calls draft

theorem after_of_error {call : Call plan} {draft left : Draft} {error : EncodeError}
    (failed : call.steps draft = .error error left) : Program.after call.steps draft = left := by
  unfold Program.after
  rw [failed]

/-- A call that fails without having had to end a part leaves everything as it was. -/
theorem restores {call : Call plan} (opens : call.closes = false) {draft left : Draft}
    (goesOn : ¬ call.EndsPart draft) {error : EncodeError} (failed : call.steps draft = .error error left) :
    left = draft := by
  cases call with
  | start | add | openEntry | append =>
    refine (steps_commits ?_).of_error failed
    exact trivial
  | closeSummary how =>
    have plain : (.closeSummary how : Call plan).IsPlain draft.session :=
      fun slot phase => goesOn ⟨slot, phase⟩
    exact (steps_commits plain).of_error failed
  | addValue key value =>
    cases plan with
    | fieldList plan => exact Record.add_restores goesOn failed
    | elementList plan => exact Record.add_restores goesOn failed
    | itemArray plan =>
      have plain : (.addValue key value : Call (.itemArray plan)).IsPlain draft.session := id
      exact (steps_commits plain).of_error failed
    | series | vector | filterList => exact nomatch key
  | closeEntry | finish => cases opens

/-- A call that fails although it had to end a part is refused when it is made again. -/
theorem refused_again {call : Call plan} {draft left : Draft} (ends : call.EndsPart draft)
    {error : EncodeError} (failed : call.steps draft = .error error left) :
    ∃ other, other ≠ error ∧ call.steps left = .error other left := by
  cases call with
  | closeSummary how =>
    obtain ⟨slot, phase⟩ := ends
    cases plan with
    | series plan | vector plan =>
      obtain ⟨session, other⟩ := Table.closeSummary_fails plan how phase draft.output error left failed
      exact ⟨_, other.symm, Table.closeSummary_closed plan how (by rw [session])⟩
    | fieldList | elementList | filterList | itemArray => exact nomatch how
  | addValue key value =>
    cases plan with
    | fieldList plan | elementList plan =>
      obtain ⟨⟨slot, phase⟩, other⟩ := Record.add_fails ends error left failed
      exact ⟨_, other.symm, Record.add_exhausted phase⟩
    | itemArray plan => exact False.elim ends
    | series | vector | filterList => exact nomatch key
  | start | add | openEntry | append | closeEntry | finish => exact False.elim ends

theorem answers_single {call : Call plan} {draft left : Draft} {error : EncodeError}
    (failed : call.steps draft = .error error left) :
    answers [call] draft = [(.error error, left.output.toList)] := by
  simp only [answers, failed]

/-- A call that fails leaves no trace, unless it had to end a part that was open. -/
theorem leavesNoTrace_iff {call : Call plan} (opens : call.closes = false) {draft left : Draft}
    {error : EncodeError} (failed : call.steps draft = .error error left) :
    call.LeavesNoTrace draft ↔ ¬ call.EndsPart draft := by
  constructor
  · intro noTrace ends
    obtain ⟨other, different, again⟩ := refused_again ends failed
    have same := noTrace.later [call]
    rw [after_of_error failed, answers_single again, answers_single failed] at same
    cases same
    exact different rfl
  · intro goesOn
    obtain rfl := restores opens goesOn failed
    constructor <;> rw [after_of_error failed]
    exact fun calls => rfl

def leave (calls : List (Call plan)) (draft : Draft) : Draft :=
  calls.foldl (fun draft call => Program.after call.steps draft) draft

end Call

/-- A series whose summary is open where there is no room for anything behind it. -/
def crampedPlan : ContainerPlan := .series { rowType := .fieldList, summary := true }

def crampedDraft : Draft := Call.leave [(.start : Call crampedPlan)] ⟨{}, .empty 4⟩

theorem leavesNoTrace_iff_cramped :
    (∃ error left, (.closeSummary true : Call crampedPlan).steps crampedDraft = .error error left ∧
        ¬ (.closeSummary true : Call crampedPlan).LeavesNoTrace crampedDraft) ∧
      ∃ error left, (.add () [1] : Call crampedPlan).steps crampedDraft = .error error left ∧
        (.add () [1] : Call crampedPlan).LeavesNoTrace crampedDraft := by
  constructor
  · obtain ⟨error, left, failed⟩ := Program.exists_of_not_succeeds
      (show Program.succeeds (.closeSummary true : Call crampedPlan).steps crampedDraft = false by decide +kernel)
    refine ⟨error, left, failed, fun noTrace => ?_⟩
    exact (Call.leavesNoTrace_iff rfl failed).mp noTrace ⟨⟨2, .bits15⟩, by decide +kernel⟩
  · obtain ⟨error, left, failed⟩ := Program.exists_of_not_succeeds
      (show Program.succeeds (.add () [1] : Call crampedPlan).steps crampedDraft = false by decide +kernel)
    exact ⟨error, left, failed, (Call.leavesNoTrace_iff rfl failed).mpr id⟩

/-- Not every call that fails leaves no trace: the length of a summary is filled in and the gap before it
closed, although there is no room for the number of rows. -/
theorem closeSummary_leaves_trace :
    ¬ ∀ (plan : ContainerPlan) (calls : List (Call plan)) (output : Output) (call : Call plan),
      call.closes = false → Program.succeeds call.steps (Call.leave calls ⟨{}, output⟩) = false →
        call.LeavesNoTrace (Call.leave calls ⟨{}, output⟩) := by
  intro all
  have noTrace := all crampedPlan [.start] (.empty 4) (.closeSummary true) rfl (by decide +kernel)
  exact absurd noTrace.bytes (by decide +kernel)

end ContainerPlan

end MarketWire
