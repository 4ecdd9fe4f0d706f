import MarketWire.Publication.Part
import MarketWire.Proofs.Rows
import MarketWire.Proofs.Tables

/-! Writing one part.

A row is added as a whole or not at all, so that a part is a table with the rows that were taken from
the front; the cursor of the first row that is left over leads to the next part.
-/

set_option autoImplicit false

namespace MarketWire.Part

open Drafting

/-- An opening writes a label and room for the length of a row that is written next. -/
def Opens (opening : Drafting Unit) (label : Bytes) : Prop :=
  ∀ session, Commits session opening fun start _ after added =>
    session.phase = .entries ∧ session.count ≠ Table.maxCount ∧
      added = label ++ List.replicate LengthForm.bits16.reserved 0 ∧
      after = { session with phase := .entry start (some ⟨start + label.length, .bits16⟩) }

theorem opens_of_label {writeLabel : Write Unit} {label : Bytes} {fits : Prop}
    (writes : Write.Extends writeLabel fun _ _ added => added = label ∧ fits) :
    Opens (do
      Table.requireRow
      Drafting.openEntry do
        writeLabel
        Table.Plan.reservePayload true) label := by
  intro session
  apply (Labelled.openEntry_commits Table.requireRow_tests writes true).mono
  rintro start _ _ _ ⟨⟨entries, room⟩, rfl, rfl, -⟩
  exact ⟨entries, room, rfl, rfl⟩

theorem hasPayload_of_elementList {plan : Table.Plan} (rows : plan.rowType = .elementList) :
    plan.hasPayload := by
  unfold Table.Plan.hasPayload
  rw [rows]
  rfl

theorem opens_series {plan : Table.Plan} (hasPayload : plan.hasPayload) :
    Opens (Series.openEntry plan) [] := by
  unfold Series.openEntry
  rw [hasPayload]
  exact opens_of_label ((Write.Emits.pure ()).mono fun _ _ _ none => ⟨none, trivial⟩)

theorem opens_vector {plan : Table.Plan} (hasPayload : plan.hasPayload) (index : UInt32)
    {action : Vector.Action} (carries : action.hasPayload) :
    Opens (Vector.openEntry plan index action none)
      ([action.code] ++ Varying.form30 index.toNat) := by
  have payload : Vector.hasPayload plan action = true := by simp [Vector.hasPayload, *]
  unfold Vector.openEntry
  rw [payload, ← Vector.Label.form_none]
  exact opens_of_label (Vector.writeLabel_extends plan ⟨index, action, none⟩)

/-- A row is added as a whole or not at all. -/
theorem addRow_commits {plan : Table.Plan} {row : Row} {label : Bytes} {post : Bytes → Prop}
    (opens : Opens (row.opening plan) label)
    (content : Write.Extends row.content fun _ _ added => post added) (session : Session) :
    Commits session (addRow plan row) fun _ _ after added => ∃ payload, post payload ∧
      session.count ≠ Table.maxCount ∧ payload.length ≤ 0xFFFF ∧
      added = label ++ LengthForm.bits16.frame payload ∧
      after = { session with count := session.count + 1 } := by
  intro output
  unfold addRow Table.closeEntry
  cases opened : row.opening plan ⟨session, output⟩ with
  | error error after =>
    rw [Program.bind_error opened]
    exact (opens session).of_error opened
  | ok value middle =>
    obtain ⟨capacity, _, bytes, phase, room, rfl, state⟩ := (opens session).of_ok opened
    obtain ⟨_, start⟩ := middle
    dsimp only at capacity bytes state
    subst state
    rw [Program.bind_ok opened]
    have before : output.toList <+: start.toList := bytes ▸ List.prefix_append _ _
    have restored : { session with phase := Phase.entries } = session := by rw [← phase]
    -- Every failure from here on ends with the output cut back to where the row began.
    cases written : row.content start with
    | error error after =>
      obtain ⟨afterCapacity, kept⟩ := content.of_error written
      have undone (slot : Option LengthSlot) :
          (do closeEntry Table.wording false; throw error : Drafting Unit)
            ⟨{ session with phase := .entry output.position slot }, after⟩ =
            .error error ⟨session, output⟩ := by
        rw [Program.bind_ok (closeEntry_false _ slot), restored,
          Output.cut_eq (afterCapacity.trans capacity) (before.trans kept)]
        rfl
      rw [Program.bind_error ((Program.tryCatch_error (write_error written)).trans (undone _))]
    | ok value after =>
      obtain ⟨afterCapacity, payload, payloadBytes, told⟩ := content.of_ok written
      rw [bytes, ← List.append_assoc] at payloadBytes
      rw [Program.bind_ok (Program.tryCatch_ok (write_ok written)), ← Output.length_toList,
        ← List.length_append]
      rcases LengthSlot.close_eq payloadBytes with
        ⟨fits, last, closed, lastCapacity, lastBytes⟩ | ⟨-, failed⟩
      · rw [closeEntry_ok _ closed, ← phase]
        refine ⟨lastCapacity.trans (afterCapacity.trans capacity),
          label ++ LengthForm.bits16.frame payload, ?_, payload, told, room, fits, rfl, rfl⟩
        rw [lastBytes, List.append_assoc]
      · have extended : output.toList <+: after.toList := by
          rw [payloadBytes, List.append_assoc, List.append_assoc]
          exact List.prefix_append _ _
        rw [closeEntry_error _ failed, restored, Output.length_toList,
          Output.cut_eq (afterCapacity.trans capacity) extended]

/-- The rows that a part can have: how each is labelled, what it holds and what must hold of it. -/
structure Source (α : Type) where
  row : α → Row
  label : α → Bytes
  form : α → Bytes
  Fits : α → Prop

namespace Source

variable {α : Type} (source : Source α)

structure Writes (plan : Table.Plan) (item : α) : Prop where
  opens : Opens ((source.row item).opening plan) (source.label item)
  content : Write.Extends (source.row item).content fun _ _ added =>
    added = source.form item ∧ source.Fits item

def rowForm (item : α) : Bytes := source.label item ++ LengthForm.bits16.frame (source.form item)

def RowFits (item : α) : Prop := source.Fits item ∧ (source.form item).length ≤ 0xFFFF

def ofColumns {β : Type} (columns : List (Column β)) (value : α → β) (cursor : α → Int32)
    (opening : α → Table.Plan → Drafting Unit) (label : α → Bytes) : Source α where
  row item := ⟨cursor item, opening item, Column.writeRow columns (value item)⟩
  label
  form item := Column.rowForm columns (value item)
  Fits item := ∀ column ∈ columns, (column.cell (value item)).Fits column.type

theorem ofColumns_writes {β : Type} {columns : List (Column β)} {value : α → β}
    {cursor : α → Int32} {opening : α → Table.Plan → Drafting Unit} {label : α → Bytes}
    {plan : Table.Plan} {item : α} (opens : Opens (opening item plan) (label item))
    (filled : columns ≠ []) (uniform : ∀ column ∈ columns, (column.cell (value item)).IsUniform) :
    (ofColumns columns value cursor opening label).Writes plan item :=
  ⟨opens, Column.writeRow_extends filled uniform⟩

end Source

section
variable {α : Type} {source : Source α} {plan : Table.Plan}

/-- Rows are taken from the front until one does not fit. -/
theorem addRows_ok {items : List α} (writes : ∀ item ∈ items, source.Writes plan item)
    {session : Session} {output : Output} {next? : Option Int32} {after : Draft}
    (few : session.count ≤ Table.maxCount)
    (h : addRows plan (items.map source.row) ⟨session, output⟩ = .ok next? after) :
    ∃ taken left, items = taken ++ left ∧ next? = left.head?.map (source.row · |>.cursor) ∧
      (left ≠ [] → session.count + taken.length ≠ 0) ∧ (∀ item ∈ taken, source.RowFits item) ∧
      session.count + taken.length ≤ Table.maxCount ∧
      after.session = { session with count := session.count + taken.length } ∧
      after.output.toList = output.toList ++ taken.flatMap source.rowForm := by
  induction items generalizing session output with
  | nil =>
    cases h
    exact ⟨[], [], rfl, rfl, by simp, by simp, few, rfl, by simp⟩
  | cons item rest ih =>
    obtain ⟨opens, content⟩ := writes item List.mem_cons_self
    have commits := addRow_commits opens content session
    rw [List.map_cons, addRows] at h
    cases added : addRow plan (source.row item) ⟨session, output⟩ with
    | ok value middle =>
      obtain ⟨-, _, bytes, payload, ⟨rfl, fits⟩, room, short, rfl, state⟩ := commits.of_ok added
      obtain ⟨_, next⟩ := middle
      dsimp only at bytes state
      subst state
      simp only [added] at h
      -- The session counts the rows that are taken.
      have fewer : session.count + 1 ≤ Table.maxCount := Nat.lt_of_le_of_ne few room
      obtain ⟨taken, left, rfl, cursor, -, fitsTaken, most, last, lastBytes⟩ :=
        ih (fun other member => writes other (List.mem_cons_of_mem _ member)) fewer h
      have count : session.count + 1 + taken.length = session.count + (item :: taken).length := by
        rw [List.length_cons]
        omega
      rw [count] at most last
      refine ⟨item :: taken, left, rfl, cursor, by simp, ?_, most, last, ?_⟩
      · exact List.forall_mem_cons.mpr ⟨⟨fits, short⟩, fitsTaken⟩
      · rw [lastBytes, bytes, List.append_assoc]
        rfl
    | error error middle =>
      obtain rfl := commits.of_error added
      simp only [added] at h
      -- Only a lack of room ends a part; then the row is left over.
      cases error with
      | bufferTooSmall needed available =>
        by_cases zero : session.count = 0
        · simp only [if_pos zero] at h
          cases h
        · simp only [if_neg zero] at h
          cases h
          exact ⟨[], item :: rest, rfl, rfl, fun _ => zero, by simp, few, rfl, by simp⟩
      | _ => cases h

end

/-! ## Whole parts -/

theorem draft_ok {α : Type} {step : Drafting α} {value : α} {before after : Draft}
    (h : draft step before = .ok value after) : step before = .ok value after := by
  unfold draft at h
  cases done : step before with
  | ok found last =>
    rw [done] at h
    cases h
    rfl
  | error error last =>
    rw [done] at h
    cases h

section
variable {α : Type} {source : Source α} {plan : Table.Plan}

/-- Rows behind a header, whose number is filled in at the end. -/
theorem rows_ok {items : List α} (writes : ∀ item ∈ items, source.Writes plan item)
    {output : Output} {summary : Bytes} {first last after : Draft} {next? : Option Int32}
    (begun : Table.Started plan output summary first)
    (added : addRows plan (items.map source.row) first = .ok next? last)
    (ended : Table.finish true last = .ok () after) :
    ∃ taken left, items = taken ++ left ∧ next? = left.head?.map (source.row · |>.cursor) ∧
      (left ≠ [] → taken ≠ []) ∧ (∀ item ∈ taken, source.RowFits item) ∧
      taken.length ≤ Table.maxCount ∧ after.output.toList = output.toList ++
        plan.form summary taken.length (taken.flatMap source.rowForm) := by
  obtain ⟨_, start⟩ := first
  obtain ⟨-, bytes, session⟩ := begun
  dsimp only at bytes session
  subst session
  obtain ⟨taken, left, split, cursor, progress, fits, few, session, rows⟩ :=
    addRows_ok writes (Nat.zero_le _) added
  obtain ⟨_, filled⟩ := last
  dsimp only at session rows
  subst session
  simp only [Nat.zero_add] at progress few ended
  rw [bytes, List.append_assoc] at rows
  -- The room for the number of rows lies between the header and the rows.
  have seals : Session.Seals ⟨.entries, output.position,
      some (output.position + (plan.header summary).length), taken.length⟩ 2 output.toList.length
      (plan.header summary ++ List.replicate 2 0 ++ taken.flatMap source.rowForm)
      (plan.form summary taken.length (taken.flatMap source.rowForm)) :=
    ⟨plan.header summary, _, by rw [Output.length_toList], rfl, rfl⟩
  obtain ⟨state, final, finished, -, finalBytes⟩ :=
    Drafting.finish_fills Table.wording 2 rfl rows seals
  have same := ended.symm.trans finished
  cases same
  exact ⟨taken, left, split, cursor, fun more => by simpa using progress more, fits, few, finalBytes⟩

/-- What a part is: a table with the rows that it takes from the front. -/
structure Takes (source : Source α) (plan : Table.Plan) (summary : Bytes) (items : List α)
    (part : Part) (taken left : List α) : Prop where
  split : items = taken ++ left
  next : part.next? = left.head?.map (source.row · |>.cursor)
  progress : left ≠ [] → taken ≠ []
  header : plan.Fits summary
  rows : ∀ item ∈ taken, source.RowFits item
  few : taken.length ≤ Table.maxCount
  bytes : part.bytes = plan.form summary taken.length (taken.flatMap source.rowForm)

theorem encode_ok {items : List α} (writes : ∀ item ∈ items, source.Writes plan item)
    {summary : Write Unit} {form : Bytes} {known : Prop}
    (summarizes : Write.Extends summary fun _ _ added => added = form ∧ known)
    {cursor : Int32} {capacity : Nat} {part : Part}
    (h : encode cursor capacity plan summary (items.map source.row) = .ok part) :
    part.cursor = cursor ∧ (plan.summary → known) ∧ ∃ taken left,
      Takes source plan (if plan.summary then form else []) items part taken left := by
  unfold encode at h
  cases published : publish plan summary (items.map source.row) ⟨{}, .empty capacity⟩ with
  | error error after =>
    rw [published] at h
    cases h
  | ok next? after =>
    rw [published] at h
    cases h
    unfold publish at published
    obtain ⟨_, first, begun, rest⟩ := Program.bind_eq_ok published
    cases hasSummary : plan.summary with
    | false =>
      rw [hasSummary] at rest
      obtain ⟨_, last, added, rest⟩ := Program.bind_eq_ok rest
      obtain ⟨_, _, ended, rest⟩ := Program.bind_eq_ok rest
      cases rest
      have started := Table.started hasSummary (draft_ok begun)
      obtain ⟨taken, left, split, cursor, progress, rows, few, bytes⟩ :=
        rows_ok writes started added (draft_ok ended)
      refine ⟨rfl, by simp, taken, left, split, cursor, progress, started.fits, rows, few, ?_⟩
      rw [bytes]
      rfl
    | true =>
      rw [hasSummary] at rest
      obtain ⟨_, second, wrote, rest⟩ := Program.bind_eq_ok rest
      obtain ⟨_, third, closed, rest⟩ := Program.bind_eq_ok rest
      obtain ⟨_, last, added, rest⟩ := Program.bind_eq_ok rest
      obtain ⟨_, _, ended, rest⟩ := Program.bind_eq_ok rest
      cases rest
      obtain ⟨holds, started⟩ := Table.started_summary hasSummary summarizes (draft_ok begun)
        (draft_ok wrote) (draft_ok closed)
      obtain ⟨taken, left, split, cursor, progress, rows, few, bytes⟩ :=
        rows_ok writes started added (draft_ok ended)
      refine ⟨rfl, fun _ => holds, taken, left, split, cursor, progress, started.fits, rows, few, ?_⟩
      rw [bytes]
      rfl

end

end MarketWire.Part
