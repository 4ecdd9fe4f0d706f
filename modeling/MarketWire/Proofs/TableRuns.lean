import MarketWire.Proofs.LabelledRuns
import MarketWire.Proofs.Tables

/-! Series and vectors come back from any sequence of calls that has written them.

Calls may fail, a summary may be dropped, and so may entries. What is read in the end is the header,
with a summary only if one was kept, and the entries that were added or committed.
-/

set_option autoImplicit false

namespace MarketWire

open Labelled

namespace Table

def Plan.told (plan : Plan) (summary : Option Bytes) : Plan := { plan with summary := summary.isSome }

def Plan.toldHeader (plan : Plan) (summary : Option Bytes) (count : Nat) : Header where
  flags := (plan.told summary).flags
  rowType := plan.rowType
  setDefinitions := plan.setDefinitions
  summary
  countHint := plan.countHint.map (·.toNat)
  count

theorem Plan.readHeader_told (plan : Plan) (summary : Option Bytes) (count : Nat) :
    (plan.told summary).readHeader (summary.getD []) count = plan.toldHeader summary count := by
  cases summary <;> rfl

theorem Plan.told_of_summary {plan : Plan} (hasSummary : plan.summary) (written : Bytes) :
    plan.told (some written) = plan := by
  obtain ⟨_, _, summary, _, _, _⟩ := plan
  cases hasSummary
  rfl

theorem Plan.told_of_noSummary {plan : Plan} (noSummary : plan.summary = false) :
    plan.told none = plan := by
  obtain ⟨_, _, summary, _, _, _⟩ := plan
  cases noSummary
  rfl

theorem Plan.sorting_toldHeader (plan : Plan) (summary : Option Bytes) (count : Nat) :
    (plan.toldHeader summary count).sorting = plan.sorting :=
  (plan.told summary).flags_tell.2.2.2

def format {ρ : Type} (plan : Plan) (add : ρ → Bytes → Drafting Unit) (openEntry : ρ → Drafting Unit)
    (carries : ρ → Bool) (labelForm : ρ → Bytes) (LabelFits : ρ → Prop) : Format ρ Bool where
  wording
  countWidth := 2
  maxCount
  hasSummary := plan.summary
  start := start plan
  closeSummary := closeSummary plan
  commits := id
  add
  openEntry
  carries
  head := plan.head
  header summary := (plan.told summary).header (summary.getD [])
  labelForm
  HeadFits := plan.HeadFits
  HeaderFits summary := (plan.told summary).Fits (summary.getD [])
  LabelFits

section
variable {ρ : Type} {plan : Plan} {addEntry : ρ → Bytes → Drafting Unit}
  {openEntry : ρ → Drafting Unit} {carries : ρ → Bool} {labelForm : ρ → Bytes} {LabelFits : ρ → Prop}

theorem closeSummary_refuses (commit : Bool) {session : Session}
    (closed : ∀ slot, session.phase ≠ .summary (some slot)) (output : Output) : ∃ error,
    closeSummary plan commit ⟨session, output⟩ = .error error ⟨session, output⟩ := by
  obtain ⟨phase, start, countAt, count⟩ := session
  cases phase with
  | summary slot? =>
    cases slot? with
    | none => exact ⟨_, rfl⟩
    | some slot => exact absurd rfl (closed slot)
  | _ => exact ⟨_, rfl⟩

theorem start_begins {session : Session} :
    Drafting.Commits session (start plan) fun start _ after added => session.phase = .idle ∧
      (session = {} →
        (format plan addEntry openEntry carries labelForm LabelFits).Begins start after added) := by
  unfold Format.Begins
  change Drafting.Commits session (start plan) fun start _ after added => session.phase = .idle ∧
    (session = {} → if plan.summary then _ else _)
  cases planned : plan.summary with
  | true =>
    apply (start_summary_commits planned).mono
    rintro start _ _ _ ⟨idle, fits, rfl, rfl⟩
    refine ⟨idle, ?_⟩
    rintro rfl
    exact ⟨rfl, rfl, fits⟩
  | false =>
    apply (start_commits planned).mono
    rintro start _ _ _ ⟨idle, fits, rfl, rfl⟩
    refine ⟨idle, ?_⟩
    rintro rfl
    rw [if_neg (by decide)]
    change _ = Session.mk .entries start (some (start + ((plan.told none).header []).length)) 0 ∧
      _ = (plan.told none).header [] ++ List.replicate 2 0 ∧ (plan.told none).Fits []
    rw [Plan.told_of_noSummary planned]
    exact ⟨rfl, rfl, fits⟩

theorem closeSummary_ends (commit : Bool) {before written : Bytes} {output : Output}
    (planned : plan.summary) (fits : plan.HeadFits)
    (bytes : output.toList = before ++ (plan.head ++ List.replicate 2 0 ++ written)) :
    let format := format plan addEntry openEntry carries labelForm LabelFits
    let summary := if commit then some written else none
    (∃ error after, closeSummary plan commit ⟨format.summarizing before.length, output⟩ =
        .error error after ∧ after.session.phase = .summary none) ∨
      ∃ after, closeSummary plan commit ⟨format.summarizing before.length, output⟩ =
          .ok () ⟨format.accepting before.length summary 0, after⟩ ∧
        after.toList = before ++ (format.header summary ++ List.replicate format.countWidth 0) ∧
        format.HeaderFits summary := by
  intro format summary
  cases commit with
  | true =>
    have whole := Plan.told_of_summary planned written
    have header : format.header summary =
        plan.head ++ LengthForm.bits15.frame written ++ plan.tail := by
      change (plan.told (some written)).header written = _
      rw [whole]
      simp [Plan.header, Plan.summaryForm, planned]
    rw [← List.append_assoc, ← List.append_assoc] at bytes
    rcases @closeSummary_true_cases plan _ _ _ before.length bytes with
      ⟨error, after, failed, phase⟩ | ⟨after, closed, afterBytes, summaryFits, hints⟩
    · rw [List.length_append] at failed
      exact .inl ⟨error, after, failed, phase⟩
    · refine .inr ⟨after, ?_, ?_, ?_⟩
      · rw [List.length_append] at closed
        refine closed.trans ?_
        unfold Format.accepting
        rw [header]
        simp
      · rw [header, afterBytes]
        simp only [List.append_assoc]
        rfl
      · change (plan.told (some written)).Fits written
        rw [whole]
        exact ⟨fits.container, fits.definitions, fun _ => summaryFits, hints⟩
  | false =>
    have header : format.header summary =
        { plan with summary := false }.head ++ { plan with summary := false }.tail := by
      change { plan with summary := false }.header [] = _
      simp [Plan.header, Plan.summaryForm]
    rcases closeSummary_false_cases bytes with
      ⟨error, after, failed, phase⟩ | ⟨after, closed, afterBytes, hints⟩
    · exact .inl ⟨error, after, failed, phase⟩
    · refine .inr ⟨after, ?_, ?_, fits.container, fits.definitions, Bool.noConfusion, hints⟩
      · unfold Format.accepting
        rw [header, ← List.length_append]
        exact closed
      · rw [header, afterBytes, List.append_assoc]
        rfl

theorem format_lawful
    (adds : ∀ {session : Session} label payload,
      let format := format plan addEntry openEntry carries labelForm LabelFits
      Drafting.Commits session (addEntry label payload) fun _ _ after added =>
        format.Accepts session ∧ after = { session with count := session.count + 1 } ∧
          added = format.itemForm (format.item label payload) ∧
          format.ItemFits (format.item label payload))
    (opens : ∀ {session : Session} label,
      let format := format plan addEntry openEntry carries labelForm LabelFits
      Drafting.Commits session (openEntry label) fun start _ after added =>
        format.Accepts session ∧ after = format.opened session start label ∧
          added = labelForm label ++ payloadRoom (carries label) ∧ LabelFits label) :
    (format plan addEntry openEntry carries labelForm LabelFits).Lawful where
  start_commits := start_begins
  closeSummary_refuses commit _ closed output := closeSummary_refuses commit closed output
  closeSummary_cases commit _ _ _ planned fits bytes := closeSummary_ends commit planned fits bytes
  add_commits := adds
  openEntry_commits := opens

end

end Table

namespace Series

abbrev Call := Labelled.Call Unit Bool

def format (plan : Table.Plan) : Format Unit Bool :=
  Table.format plan (fun _ => add plan) (fun _ => openEntry plan) (fun _ => plan.hasPayload)
    (fun _ => []) fun _ => True

instance (plan : Table.Plan) : (format plan).Lawful := by
  have noLabel : Write.Extends (pure () : Write Unit) fun _ _ added => added = [] ∧ True :=
    (Write.Emits.pure ()).mono fun _ _ _ none => ⟨none, trivial⟩
  refine Table.format_lawful (fun _ payload => ?_) fun _ => ?_
  · apply (add_commits Table.requireRow_tests noLabel plan.hasPayload payload).mono
    rintro _ _ _ _ ⟨⟨entries, more⟩, rfl, rfl, -, fits⟩
    exact ⟨⟨entries, more⟩, rfl, rfl, ⟨trivial, fits⟩⟩
  · apply (openEntry_commits Table.requireRow_tests noLabel plan.hasPayload).mono
    rintro _ _ _ _ ⟨⟨entries, more⟩, rfl, rfl, -⟩
    exact ⟨⟨entries, more⟩, rfl, rfl, trivial⟩

/-- A series is read as its writer has been called; rows of the type of no data are empty. -/
theorem decode_ended_rows (plan : Table.Plan) (output : Output) (calls : List Call)
    (allowed : (Run.start output).allowsAll (format plan) calls) {final : Draft}
    (ended : Table.finish true (Run.calls (format plan) (.start output) calls).draft = .ok () final) :
    let journal := (Run.calls (format plan) (.start output) calls).journal
    (plan.rowType = .noData → ∀ item ∈ journal.items, item.payload = []) ∧
      decode (final.output.toList.drop output.position) =
        .ok ⟨plan.toldHeader journal.summary journal.items.length,
          journal.items.map fun item => .container plan.rowType item.payload⟩ := by
  intro journal
  obtain ⟨⟨header, few, each⟩, bytes⟩ := form_of_ended allowed ended
  refine ⟨fun blank item member => (each item member).payload.empty ?_, ?_⟩
  · change plan.hasPayload = false
    simp [Table.Plan.hasPayload, blank]
  · have decoded := decode_rows header few fun item member => (each item member).payload
    rw [Table.Plan.readHeader_told] at decoded
    rw [bytes]
    exact decoded

/-! Rows behind two bytes that were there before, in a series whose summary is dropped. -/

def tickPlan : Table.Plan where
  rowType := .fieldList
  setDefinitions := some [1, 2]
  summary := true
  countHint := some 70

def tickOutput : Output := ⟨#[0xAA, 0xBB], 40, by decide⟩

/-- No row can be added before the summary is closed, and one row is dropped. -/
def tickCalls : List Call :=
  [.start, .append [7, 7], .add () [1], .closeSummary false, .openEntry (), .append [9],
    .closeEntry false, .add () [1, 2, 3], .openEntry (), .append [8], .start, .append [7],
    .closeEntry true]

theorem decode_ended_rows_tick : ∃ final,
    Table.finish true (Run.calls (format tickPlan) (.start tickOutput) tickCalls).draft =
        .ok () final ∧
      decode (final.output.toList.drop 2) = .ok ⟨⟨0x09, .fieldList, some [1, 2], none, some 70, 2⟩,
        [.container .fieldList [1, 2, 3], .container .fieldList [8, 7]]⟩ := by
  have allowed : (Run.start tickOutput).allowsAll (format tickPlan) tickCalls := by decide +kernel
  have journal : (Run.calls (format tickPlan) (.start tickOutput) tickCalls).journal =
      ⟨none, [⟨(), [1, 2, 3]⟩, ⟨(), [8, 7]⟩], .nothing⟩ := by decide +kernel
  have ends : Program.succeeds (Table.finish true)
      (Run.calls (format tickPlan) (.start tickOutput) tickCalls).draft := by decide +kernel
  obtain ⟨⟨⟩, final, ended⟩ := Program.exists_of_succeeds ends
  obtain ⟨-, decoded⟩ := decode_ended_rows tickPlan tickOutput tickCalls allowed ended
  rw [journal] at decoded
  exact ⟨final, ended, decoded⟩

end Series

namespace Vector

abbrev Call := Labelled.Call Label Bool

def format (plan : Table.Plan) : Format Label Bool :=
  Table.format plan (fun label => add plan label.index label.action label.permission)
    (fun label => openEntry plan label.index label.action label.permission)
    (fun label => hasPayload plan label.action) Label.form (Label.Fits plan)

instance (plan : Table.Plan) : (format plan).Lawful := by
  refine Table.format_lawful (fun label payload => ?_) fun label => ?_
  · apply (add_commits Table.requireRow_tests (writeLabel_extends plan label) _ payload).mono
    rintro _ _ _ _ ⟨⟨entries, more⟩, rfl, rfl, labelFits, fits⟩
    exact ⟨⟨entries, more⟩, rfl, rfl, ⟨labelFits, fits⟩⟩
  · apply (openEntry_commits Table.requireRow_tests (writeLabel_extends plan label) _).mono
    rintro _ _ _ _ ⟨⟨entries, more⟩, rfl, rfl, labelFits⟩
    exact ⟨⟨entries, more⟩, rfl, rfl, labelFits⟩

def itemEntry (plan : Table.Plan) (item : Item Label) : Entry :=
  ⟨item.label.index.toNat, some item.label.action, item.label.permission,
    .container plan.rowType item.payload⟩

/-- A vector is read as its writer has been called; entries that clear or delete a row and those of the
type of no data are empty. -/
theorem decode_ended_entries (plan : Table.Plan) (output : Output) (calls : List Call)
    (allowed : (Run.start output).allowsAll (format plan) calls) {final : Draft}
    (ended : Table.finish true (Run.calls (format plan) (.start output) calls).draft = .ok () final) :
    let journal := (Run.calls (format plan) (.start output) calls).journal
    let header := plan.toldHeader journal.summary journal.items.length
    header.sorting = plan.sorting ∧
      (∀ item ∈ journal.items, plan.rowType = .noData ∨ item.label.action = .clear ∨
        item.label.action = .delete → item.payload = []) ∧
      decode (final.output.toList.drop output.position) =
        .ok ⟨header, journal.items.map (itemEntry plan)⟩ := by
  intro journal header
  obtain ⟨⟨headerFits, few, each⟩, bytes⟩ := form_of_ended allowed ended
  refine ⟨plan.sorting_toldHeader _ _, fun item member bare => (each item member).payload.empty ?_, ?_⟩
  · change hasPayload plan item.label.action = false
    rcases bare with blank | clear | delete
    · simp [hasPayload, Table.Plan.hasPayload, blank]
    · rw [clear]
      rfl
    · rw [delete]
      rfl
  · have labels : ∀ item ∈ journal.items, item.label.Fits (plan.told journal.summary) := by
      intro item member
      obtain ⟨index, permission, permitted⟩ := (each item member).label
      exact ⟨index, permission, permitted⟩
    have decoded := decode_entries headerFits few labels fun item member => (each item member).payload
    rw [Table.Plan.readHeader_told] at decoded
    rw [bytes]
    exact decoded

/-! A book of orders with permission data, behind a byte that was there before. -/

def bookPlan : Table.Plan where
  rowType := .elementList
  summary := true
  permissions := true
  sorting := true

def bookOutput : Output := ⟨#[0xAA], 50, by decide⟩

/-- An index that is too large is refused, one entry is dropped, and what a delete is given is left
out. -/
def bookCalls : List Call :=
  [.start, .append [5], .append [6], .closeSummary true, .add ⟨3, .insert, some [1, 2]⟩ [4],
    .add ⟨0xFFFFFFFF, .insert, none⟩ [4], .openEntry ⟨300, .set, none⟩, .append [9],
    .closeEntry false, .openEntry ⟨300, .set, none⟩, .append [8], .append [7], .closeEntry true,
    .add ⟨3, .delete, some []⟩ [1]]

theorem decode_ended_entries_book : ∃ final,
    Table.finish true (Run.calls (format bookPlan) (.start bookOutput) bookCalls).draft =
        .ok () final ∧
      decode (final.output.toList.drop 1) = .ok ⟨⟨0x16, .elementList, none, some [5, 6], none, 3⟩,
        [⟨3, some .insert, some [1, 2], .container .elementList [4]⟩,
          ⟨300, some .set, none, .container .elementList [8, 7]⟩,
          ⟨3, some .delete, some [], .container .elementList []⟩]⟩ := by
  have allowed : (Run.start bookOutput).allowsAll (format bookPlan) bookCalls := by decide +kernel
  have journal : (Run.calls (format bookPlan) (.start bookOutput) bookCalls).journal =
      ⟨some [5, 6], [⟨⟨3, .insert, some [1, 2]⟩, [4]⟩, ⟨⟨300, .set, none⟩, [8, 7]⟩,
        ⟨⟨3, .delete, some []⟩, []⟩], .nothing⟩ := by decide +kernel
  have ends : Program.succeeds (Table.finish true)
      (Run.calls (format bookPlan) (.start bookOutput) bookCalls).draft := by decide +kernel
  obtain ⟨⟨⟩, final, ended⟩ := Program.exists_of_succeeds ends
  obtain ⟨-, -, decoded⟩ := decode_ended_entries bookPlan bookOutput bookCalls allowed ended
  rw [journal] at decoded
  exact ⟨final, ended, decoded⟩

end Vector

end MarketWire
