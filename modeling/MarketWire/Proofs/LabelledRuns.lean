import MarketWire.Proofs.LabelledEntries

/-! Runs of the writer of a container of labelled entries.

A caller may make any calls in any order, and any of them may fail. A journal keeps the summary and the
entries that the calls have given to the container; output and session follow it from call to call, so
the bytes of a container that is ended are those that its journal tells.
-/

set_option autoImplicit false

namespace MarketWire.Labelled

/-! ## Calls and what they give -/

/-- A call of the writer. Bytes are appended to the summary or to the payload of the open entry. -/
inductive Call (ρ σ : Type) where
  | start
  | closeSummary (how : σ)
  | add (label : ρ) (payload : Bytes)
  | openEntry (label : ρ)
  | append (payload : Bytes)
  | closeEntry (commit : Bool)

inductive Pending (ρ : Type) where
  | nothing
  | summary (written : Bytes)
  | entry (item : Item ρ)
  deriving DecidableEq, Repr

/-- The summary that is kept, the entries that are committed and what is being written. -/
structure Journal (ρ : Type) where
  summary : Option Bytes := none
  items : List (Item ρ) := []
  pending : Pending ρ := .nothing
  deriving DecidableEq, Repr

structure Run (ρ : Type) where
  draft : Draft
  journal : Journal ρ

def Run.start {ρ : Type} (output : Output) : Run ρ := ⟨⟨{}, output⟩, {}⟩

section
variable {ρ σ : Type} (format : Format ρ σ)

def Call.steps : Call ρ σ → Drafting Unit
  | .start => format.start
  | .closeSummary how => format.closeSummary how
  | .add label payload => format.add label payload
  | .openEntry label => format.openEntry label
  | .append payload => Drafting.write (Write.bytes payload)
  | .closeEntry commit => format.closeEntry commit

def Pending.append (payload : Bytes) : Pending ρ → Pending ρ
  | .nothing => .nothing
  | .summary written => .summary (written ++ payload)
  | .entry item => .entry { item with payload := item.payload ++ payload }

namespace Journal

def after (journal : Journal ρ) : Call ρ σ → Journal ρ
  | .start => if format.hasSummary then { journal with pending := .summary [] } else journal
  | .closeSummary how => match journal.pending with
    | .summary written =>
      { journal with summary := if format.commits how then some written else none, pending := .nothing }
    | _ => journal
  | .add label payload => { journal with items := journal.items ++ [format.item label payload] }
  | .openEntry label => { journal with pending := .entry ⟨label, []⟩ }
  | .append payload => { journal with pending := journal.pending.append payload }
  | .closeEntry commit => match journal.pending with
    | .entry item =>
      { journal with items := journal.items ++ (if commit then [item] else []), pending := .nothing }
    | _ => journal

def afterFailure (journal : Journal ρ) : Call ρ σ → Journal ρ
  | .closeEntry _ => match journal.pending with
    | .entry _ => { journal with pending := .nothing }
    | _ => journal
  | _ => journal

end Journal

namespace Run

def call (run : Run ρ) (call : Call ρ σ) : Run ρ :=
  match call.steps format run.draft with
  | .ok _ draft => ⟨draft, run.journal.after format call⟩
  | .error _ draft => ⟨draft, run.journal.afterFailure call⟩

def calls (run : Run ρ) (calls : List (Call ρ σ)) : Run ρ := calls.foldl (call format) run

/-- Bytes are appended only to what is being written in place, and no entry without a payload is
committed behind bytes. -/
def allows (run : Run ρ) : Call ρ σ → Bool
  | .append _ => match run.journal.pending with
    | .nothing => false
    | _ => true
  | .closeEntry true => match run.journal.pending with
    | .entry item => format.carries item.label || item.payload.isEmpty
    | _ => true
  | _ => true

def allowsAll : Run ρ → List (Call ρ σ) → Bool
  | _, [] => true
  | run, call :: calls => run.allows format call && allowsAll (run.call format call) calls

end Run

/-! ## What a run has written -/

/-- The output and the session of a writer are as its journal tells, behind what the output held before.
Only after a summary could not be closed nothing is known, and nothing follows. -/
inductive Run.Follows (before : Bytes) : Run ρ → Prop
  | idle {output : Output} (bytes : output.toList = before) : Follows before (.start output)
  | summary {output : Output} {written : Bytes} (planned : format.hasSummary)
      (fits : format.HeadFits)
      (bytes : output.toList = before ++ (format.head ++ List.replicate 2 0 ++ written)) :
      Follows before ⟨⟨format.summarizing before.length, output⟩, ⟨none, [], .summary written⟩⟩
  | spent {draft : Draft} {journal : Journal ρ} (phase : draft.session.phase = .summary none) :
      Follows before ⟨draft, journal⟩
  | entries {output : Output} {summary : Option Bytes} {items : List (Item ρ)}
      (fits : format.Fits summary items)
      (bytes : output.toList = before ++ format.unsealed summary items) :
      Follows before ⟨⟨format.accepting before.length summary items.length, output⟩,
        ⟨summary, items, .nothing⟩⟩
  | entry {output : Output} {summary : Option Bytes} {items : List (Item ρ)} {item : Item ρ}
      (fits : format.Fits summary items) (more : items.length ≠ format.maxCount)
      (label : format.LabelFits item.label)
      (bytes : output.toList = before ++ format.unsealed summary items ++
        (format.labelForm item.label ++ payloadRoom (format.carries item.label) ++ item.payload)) :
      Follows before ⟨⟨format.opened (format.accepting before.length summary items.length)
          (before ++ format.unsealed summary items).length item.label, output⟩,
        ⟨summary, items, .entry item⟩⟩

end

section
variable {ρ σ : Type} {format : Format ρ σ} {before : Bytes} {summary : Option Bytes}
  {items : List (Item ρ)}

theorem Format.Fits.add (fits : format.Fits summary items) (more : items.length ≠ format.maxCount)
    {item : Item ρ} (itemFits : format.ItemFits item) : format.Fits summary (items ++ [item]) where
  header := fits.header
  count := by
    have count := fits.count
    rw [List.length_append, List.length_singleton]
    omega
  each := List.forall_mem_append.mpr ⟨fits.each, List.forall_mem_singleton.mpr itemFits⟩

theorem Format.unsealed_add (item : Item ρ) :
    format.unsealed summary (items ++ [item]) =
      format.unsealed summary items ++ format.itemForm item := by
  simp [unsealed]

namespace Run.Follows

theorem of_entries {session : Session} {output : Output} {journal : Journal ρ}
    (follows : Follows format before ⟨⟨session, output⟩, journal⟩)
    (phase : session.phase = .entries) :
    session = format.accepting before.length journal.summary journal.items.length ∧
      journal.pending = .nothing ∧ format.Fits journal.summary journal.items ∧
      output.toList = before ++ format.unsealed journal.summary journal.items := by
  cases follows with
  | entries fits bytes => exact ⟨rfl, rfl, fits, bytes⟩
  | spent spent =>
    rw [phase] at spent
    cases spent
  | idle | summary | entry => cases phase

theorem entries_add {session : Session} {output : Output} {item : Item ρ}
    (fits : format.Fits summary items) (more : items.length ≠ format.maxCount)
    (itemFits : format.ItemFits item)
    (accepting : session = format.accepting before.length summary items.length)
    (bytes : output.toList = before ++ format.unsealed summary items ++ format.itemForm item) :
    Follows format before ⟨⟨{ session with count := session.count + 1 }, output⟩,
      ⟨summary, items ++ [item], .nothing⟩⟩ := by
  subst accepting
  have here := entries (fits.add more itemFits)
    (show output.toList = before ++ _ by rw [bytes, Format.unsealed_add, List.append_assoc])
  rwa [List.length_append, List.length_singleton] at here

variable {run : Run ρ}

theorem of_commits (follows : run.Follows format before) {call : Call ρ σ}
    {post : Nat → Unit → Session → Bytes → Prop}
    (commits : Drafting.Commits run.draft.session (call.steps format) post)
    (keeps : run.journal.afterFailure call = run.journal)
    (next : ∀ session output added, post run.draft.output.position () session added →
      output.toList = run.draft.output.toList ++ added →
        Follows format before ⟨⟨session, output⟩, run.journal.after format call⟩) :
    (run.call format call).Follows format before := by
  unfold Run.call
  cases h : call.steps format run.draft with
  | error error after =>
    obtain rfl := commits.of_error h
    dsimp only
    rwa [keeps]
  | ok _ after =>
    obtain ⟨-, added, bytes, told⟩ := commits.of_ok h
    exact next _ _ _ told bytes

theorem of_refused (follows : run.Follows format before) {call : Call ρ σ}
    (refused : ∃ error, call.steps format run.draft = .error error run.draft)
    (keeps : run.journal.afterFailure call = run.journal) :
    (run.call format call).Follows format before := by
  obtain ⟨error, refused⟩ := refused
  unfold Run.call
  rw [refused]
  dsimp only
  rwa [keeps]

theorem append (follows : run.Follows format before) {payload : Bytes}
    (allowed : run.allows format (.append payload : Call ρ σ)) :
    (run.call format (.append payload : Call ρ σ)).Follows format before := by
  refine follows.of_commits (Drafting.bytes_commits payload) rfl fun _ output _ => ?_
  rintro ⟨rfl, rfl⟩ bytes
  cases follows with
  | idle | entries => cases allowed
  | spent phase => exact spent phase
  | summary planned fits old =>
    refine summary planned fits ?_
    rw [bytes, old]
    simp only [List.append_assoc]
  | @entry _ _ _ item fits more label old =>
    refine @entry _ _ _ _ _ _ _ { item with payload := item.payload ++ _ } fits more label ?_
    rw [bytes, old]
    simp only [List.append_assoc]

variable [lawful : format.Lawful]

theorem start (follows : run.Follows format before) :
    (run.call format (.start : Call ρ σ)).Follows format before := by
  refine follows.of_commits lawful.start_commits rfl fun _ output _ => ?_
  rintro ⟨idle, begins⟩ bytes
  -- Nothing has been written before the header.
  cases follows with
  | spent phase =>
    rw [idle] at phase
    cases phase
  | summary | entries | entry => cases idle
  | @idle start same =>
    have begun := begins rfl
    change output.toList = start.toList ++ _ at bytes
    rw [same] at bytes
    dsimp only [Run.start] at begun
    rw [← Output.length_toList, same] at begun
    unfold Format.Begins at begun
    unfold Journal.after
    cases planned : format.hasSummary with
    | true =>
      rw [planned, if_pos rfl] at begun
      obtain ⟨rfl, rfl, fits⟩ := begun
      exact summary planned fits (by rw [bytes, List.append_nil])
    | false =>
      rw [planned, if_neg (by decide)] at begun
      obtain ⟨rfl, rfl, fits⟩ := begun
      refine @entries _ _ _ _ _ none [] ⟨fits, Nat.zero_le _, by simp⟩ ?_
      simpa [Format.unsealed] using bytes

theorem closeSummary (follows : run.Follows format before) (how : σ) :
    (run.call format (.closeSummary how)).Follows format before := by
  cases follows with
  | idle bytes =>
    exact (idle bytes).of_refused
      (lawful.closeSummary_refuses how (fun _ => Phase.noConfusion) _) rfl
  | entries fits bytes =>
    exact (entries fits bytes).of_refused
      (lawful.closeSummary_refuses how (fun _ => Phase.noConfusion) _) rfl
  | entry fits more label bytes =>
    exact (entry fits more label bytes).of_refused
      (lawful.closeSummary_refuses how (fun _ => Phase.noConfusion) _) rfl
  | spent phase =>
    refine (spent phase).of_refused (lawful.closeSummary_refuses how (fun slot same => ?_) _) rfl
    cases phase.symm.trans same
  | summary planned fits bytes =>
    unfold Run.call Call.steps
    rcases lawful.closeSummary_cases how planned fits bytes with
      ⟨error, after, failed, phase⟩ | ⟨after, closed, afterBytes, headerFits⟩
    · dsimp only
      rw [failed]
      exact spent phase
    · dsimp only
      rw [closed]
      refine @entries _ _ _ _ _ _ [] ⟨headerFits, Nat.zero_le _, by simp⟩ ?_
      simpa [Format.unsealed] using afterBytes

theorem add (follows : run.Follows format before) (label : ρ) (payload : Bytes) :
    (run.call format (.add label payload : Call ρ σ)).Follows format before := by
  refine follows.of_commits (lawful.add_commits label payload) rfl fun _ _ _ => ?_
  rintro ⟨accepts, rfl, rfl, itemFits⟩ bytes
  obtain ⟨⟨session, output⟩, summary, items, pending⟩ := run
  obtain ⟨accepting, rfl, fits, old⟩ := follows.of_entries accepts.phase
  dsimp only at accepting bytes fits old
  rw [old] at bytes
  have more : items.length ≠ format.maxCount := by
    have more := accepts.more
    rwa [accepting] at more
  exact entries_add fits more itemFits accepting bytes

theorem openEntry (follows : run.Follows format before) (label : ρ) :
    (run.call format (.openEntry label : Call ρ σ)).Follows format before := by
  refine follows.of_commits (lawful.openEntry_commits label) rfl fun _ _ _ => ?_
  rintro ⟨accepts, rfl, rfl, labelFits⟩ bytes
  obtain ⟨⟨session, output⟩, summary, items, pending⟩ := run
  obtain ⟨accepting, -, fits, old⟩ := follows.of_entries accepts.phase
  dsimp only at accepting bytes fits old ⊢
  subst accepting
  rw [← Output.length_toList, old]
  rw [old, ← List.append_nil (_ ++ payloadRoom _)] at bytes
  exact @entry _ _ _ _ _ _ _ ⟨label, []⟩ fits accepts.more labelFits bytes

omit lawful in
theorem closeEntry (follows : run.Follows format before) {commit : Bool}
    (allowed : run.allows format (.closeEntry commit : Call ρ σ)) :
    (run.call format (.closeEntry commit : Call ρ σ)).Follows format before := by
  cases follows with
  | idle bytes =>
    exact (idle bytes).of_refused (closeEntry_refuses _ commit fun _ _ => Phase.noConfusion) rfl
  | summary planned fits bytes =>
    exact (summary planned fits bytes).of_refused
      (closeEntry_refuses _ commit fun _ _ => Phase.noConfusion) rfl
  | entries fits bytes =>
    exact (entries fits bytes).of_refused
      (closeEntry_refuses _ commit fun _ _ => Phase.noConfusion) rfl
  | @spent draft journal phase =>
    obtain ⟨error, refused⟩ := @closeEntry_refuses draft.session draft.output format.wording commit
      fun _ _ same => Phase.noConfusion (phase.symm.trans same)
    unfold Run.call Call.steps Format.closeEntry
    dsimp only
    rw [refused]
    exact spent phase
  | @entry output summary items item fits more label bytes =>
    let session := format.accepting before.length summary items.length
    unfold Run.call Call.steps Format.closeEntry
    dsimp only
    cases commit with
    | false =>
      obtain ⟨after, closed, afterBytes⟩ := @closeEntry_discards session _ _ format.wording
        (payloadSlot? (format.carries item.label) _) _ bytes
      dsimp only [session] at closed
      unfold Format.opened
      dsimp only
      rw [closed]
      change Follows format before ⟨⟨session, after⟩, ⟨summary, items ++ [], .nothing⟩⟩
      rw [List.append_nil]
      exact entries fits afterBytes
    | true =>
      have told : format.carries item.label = true ∨ item.payload.isEmpty = true :=
        Bool.or_eq_true_iff.mp allowed
      have empty : format.carries item.label = false → item.payload = [] := fun none =>
        List.isEmpty_iff.mp (told.resolve_left (by rw [none]; decide))
      rcases @closeEntry_commits session _ _ _ _ format.wording _ empty bytes with
        ⟨after, closed, afterBytes, payloadFits⟩ | ⟨error, after, failed, afterBytes⟩
      · dsimp only [session] at closed
        unfold Format.opened
        dsimp only
        rw [closed]
        exact entries_add fits more ⟨label, payloadFits⟩ rfl afterBytes
      · dsimp only [session] at failed
        unfold Format.opened
        dsimp only
        rw [failed]
        exact entries fits afterBytes

/-- One call keeps the output in step with the journal. -/
theorem call (follows : run.Follows format before) {call : Call ρ σ}
    (allowed : run.allows format call) : (run.call format call).Follows format before := by
  cases call with
  | start => exact follows.start
  | closeSummary how => exact follows.closeSummary how
  | add label payload => exact follows.add label payload
  | openEntry label => exact follows.openEntry label
  | append payload => exact follows.append allowed
  | closeEntry commit => exact follows.closeEntry allowed

/-- And so does any sequence of calls, whichever of them fail. -/
theorem calls (follows : run.Follows format before) {calls : List (Call ρ σ)}
    (allowed : run.allowsAll format calls) : (run.calls format calls).Follows format before := by
  induction calls generalizing run with
  | nil => exact follows
  | cons call calls ih =>
    obtain ⟨here, behind⟩ := Bool.and_eq_true_iff.mp allowed
    exact ih (follows.call here) behind

end Run.Follows

/-! ## Ended containers -/

theorem Format.accepting_seals :
    (format.accepting before.length summary items.length).Seals format.countWidth before.length
      (format.unsealed summary items) (format.form summary items) :=
  ⟨format.header summary, items.flatMap format.itemForm, rfl, rfl, rfl⟩

/-- A container can be ended only while it accepts entries, and its bytes are then those that its
journal tells. -/
theorem finish_form {run : Run ρ} (follows : run.Follows format before) {final : Draft}
    (ended : format.finish true run.draft = .ok () final) :
    format.Fits run.journal.summary run.journal.items ∧
      final.output.toList = before ++ format.form run.journal.summary run.journal.items := by
  cases follows with
  | idle | summary | entry => cases ended
  | @spent draft journal phase =>
    obtain ⟨⟨_, _, _, _⟩, _⟩ := draft
    dsimp only at phase
    subst phase
    cases ended
  | @entries output summary items fits bytes =>
    obtain ⟨last, after, done, -, afterBytes⟩ :=
      Drafting.finish_fills format.wording format.countWidth rfl bytes Format.accepting_seals
    cases done.symm.trans ended
    exact ⟨fits, afterBytes⟩

/-- Whatever calls have been made, a container that is ended is what its journal tells. -/
theorem form_of_ended [format.Lawful] {output : Output} {calls : List (Call ρ σ)}
    (allowed : (Run.start output).allowsAll format calls) {final : Draft}
    (ended : format.finish true ((Run.start output).calls format calls).draft = .ok () final) :
    let journal := ((Run.start output).calls format calls).journal
    format.Fits journal.summary journal.items ∧
      final.output.toList.drop output.position = format.form journal.summary journal.items := by
  intro journal
  have follows := (Run.Follows.idle rfl : (Run.start output).Follows format output.toList).calls allowed
  obtain ⟨fits, bytes⟩ := finish_form follows ended
  refine ⟨fits, ?_⟩
  rw [bytes, ← Output.length_toList, List.drop_left]

end

end MarketWire.Labelled
