import MarketWire.Container.Series
import MarketWire.Container.Vector
import MarketWire.Proofs.Arrays
import MarketWire.Proofs.LabelledEntries

/-! Series and vectors: their headers, written and read back, and their rows.

The flags of a header tell which of its parts are there, so a reader finds each part and the rows
behind them.
-/

set_option autoImplicit false

namespace MarketWire

namespace Table

namespace Plan

def head (plan : Plan) : Bytes :=
  [plan.flags, plan.rowType.containerCode] ++ plan.setDefinitions.elim [] LengthForm.bits15.frame

def summaryForm (plan : Plan) (summary : Bytes) : Bytes :=
  if plan.summary then LengthForm.bits15.frame summary else []

def tail (plan : Plan) : Bytes := plan.countHint.elim [] fun hint => Varying.form30 hint.toNat

def header (plan : Plan) (summary : Bytes) : Bytes := plan.head ++ plan.summaryForm summary ++ plan.tail

def form (plan : Plan) (summary : Bytes) (count : Nat) (rows : Bytes) : Bytes :=
  plan.header summary ++ Bytes.ofNat 2 count ++ rows

structure HeadFits (plan : Plan) : Prop where
  container : plan.rowType.isContainer
  definitions : ∀ encoded ∈ plan.setDefinitions, encoded.length ≤ Varying.max15

def Fits (plan : Plan) (summary : Bytes) : Prop :=
  plan.rowType.isContainer ∧
    (∀ encoded ∈ plan.setDefinitions, encoded.length ≤ Varying.max15) ∧
    (plan.summary → summary.length ≤ Varying.max15) ∧
    ∀ hint ∈ plan.countHint, hint.toNat ≤ Varying.max30

theorem flags_tell (plan : Plan) :
    decide (plan.flags &&& TableFlag.setDefinitions ≠ 0) = plan.setDefinitions.isSome ∧
      decide (plan.flags &&& TableFlag.summary ≠ 0) = plan.summary ∧
      decide (plan.flags &&& TableFlag.countHint ≠ 0) = plan.countHint.isSome ∧
      decide (plan.flags &&& TableFlag.sorting ≠ 0) = plan.sorting := by
  unfold flags
  generalize plan.setDefinitions.isSome = setDefinitions
  generalize plan.summary = summary
  generalize plan.permissions = permissions
  generalize plan.countHint.isSome = countHint
  generalize plan.sorting = sorting
  -- Five bits make up the flags, which leaves finitely many cases.
  revert setDefinitions summary permissions countHint sorting
  decide

end Plan

/-! ## Writing a header -/

theorem requireRow_tests {session : Session} :
    Drafting.Tests session requireRow fun _ => session.phase = .entries ∧ session.count ≠ maxCount :=
  (Drafting.requireEntries_tests _).bind fun _ entries =>
    (Drafting.requireCount_tests _).mono fun _ more => ⟨entries, more⟩

section
variable {plan : Plan}

theorem writeHead_extends : Write.Extends plan.writeHead fun _ _ added =>
    added = plan.head ∧ ∀ encoded ∈ plan.setDefinitions, encoded.length ≤ Varying.max15 := by
  apply ((Write.byte_emits _).then_extends fun _ => (Write.byte_emits _).then_extends fun _ =>
    Write.framed?_extends .bits15 plan.setDefinitions).mono
  rintro _ _ _ ⟨_, ⟨_, ⟨rfl, fits⟩, rfl⟩, rfl⟩
  exact ⟨rfl, fits⟩

theorem writeTail_extends : Write.Extends plan.writeTail fun start countAt added =>
    countAt = start + plan.tail.length ∧ added = plan.tail ++ List.replicate 2 0 ∧
      ∀ hint ∈ plan.countHint, hint.toNat ≤ Varying.max30 := by
  unfold Plan.writeTail Plan.tail
  cases plan.countHint with
  | none =>
    apply ((Write.Emits.pure ()).then_extends fun _ => Write.reserve_extends 2).mono
    rintro _ _ _ ⟨_, ⟨rfl, rfl⟩, rfl⟩
    exact ⟨rfl, rfl, by simp⟩
  | some hint =>
    apply (Write.Extends.bind (Varying.write30_extends hint.toNat) fun _ =>
      Write.reserve_extends 2).mono
    rintro _ _ _ ⟨_, _, _, ⟨rfl, fits⟩, ⟨rfl, rfl⟩, rfl⟩
    refine ⟨rfl, rfl, ?_⟩
    rintro _ ⟨⟩
    exact fits

theorem start_commits (noSummary : plan.summary = false) {session : Session} :
    Drafting.Commits session (start plan) fun start _ after added =>
      session.phase = .idle ∧ plan.Fits [] ∧ added = plan.header [] ++ List.replicate 2 0 ∧
        after = { session with
          start, phase := .entries, countAt := some (start + (plan.header []).length) } := by
  refine (Drafting.requireIdle_tests wording).then_commits fun _ idle => ?_
  refine Drafting.Commits.ite (fun _ => Drafting.Commits.throw_bind _) fun container => ?_
  refine Drafting.Commits.of_position fun start => ?_
  rw [noSummary, if_neg (by decide)]
  have header := Write.Extends.bind (@writeHead_extends plan) fun _ => @writeTail_extends plan
  have noForm : plan.summaryForm [] = [] := by simp [Plan.summaryForm, noSummary]
  apply (Drafting.Commits.write_update header _).mono
  rintro _ _ _ _ ⟨_, rfl, _, _, _, ⟨rfl, definitions⟩, ⟨rfl, rfl, hints⟩, rfl⟩ rfl
  refine ⟨idle, ⟨by simpa using container, definitions, by simp [noSummary], hints⟩, ?_, ?_⟩
  · simp [Plan.header, noForm]
  · simp [Plan.header, noForm, Nat.add_assoc]

theorem start_summary_commits (hasSummary : plan.summary = true) {session : Session} :
    Drafting.Commits session (start plan) fun start _ after added =>
      session.phase = .idle ∧ plan.HeadFits ∧ added = plan.head ++ List.replicate 2 0 ∧
        after = { session with
          start, phase := .summary (some ⟨start + plan.head.length, .bits15⟩) } := by
  refine (Drafting.requireIdle_tests wording).then_commits fun _ idle => ?_
  refine Drafting.Commits.ite (fun _ => Drafting.Commits.throw_bind _) fun container => ?_
  refine Drafting.Commits.of_position fun start => ?_
  rw [hasSummary, if_pos rfl]
  have header := Write.Extends.bind (@writeHead_extends plan) fun _ =>
    LengthSlot.reserve_extends .bits15
  apply (Drafting.Commits.write_update header _).mono
  rintro _ _ _ _ ⟨_, rfl, _, _, _, ⟨rfl, definitions⟩, ⟨rfl, rfl⟩, rfl⟩ rfl
  exact ⟨idle, ⟨by simpa using container, definitions⟩, rfl, rfl⟩

/-- Behind the summary, the hint and the room for the number of rows are written or nothing is. -/
theorem closeTail_cases {start : Nat} (output : Output) :
    let tail : Drafting Unit := do
      let countAt ← Drafting.write (Write.atomic plan.writeTail)
      Drafting.update fun session => { session with phase := .entries, countAt := some countAt }
    (∃ error, tail ⟨⟨.summary none, start, none, 0⟩, output⟩ =
        .error error ⟨⟨.summary none, start, none, 0⟩, output⟩) ∨
      ∃ after, tail ⟨⟨.summary none, start, none, 0⟩, output⟩ =
          .ok () ⟨⟨.entries, start, some (output.toList ++ plan.tail).length, 0⟩, after⟩ ∧
        after.toList = output.toList ++ plan.tail ++ List.replicate 2 0 ∧
        ∀ hint ∈ plan.countHint, hint.toNat ≤ Varying.max30 := by
  intro tail
  have commits := @Drafting.Commits.write_update _ ⟨.summary none, start, none, 0⟩ _ _
    (@writeTail_extends plan) fun countAt session =>
      { session with phase := .entries, countAt := some countAt }
  cases h : tail ⟨⟨.summary none, start, none, 0⟩, output⟩ with
  | error error after =>
    obtain rfl := commits.of_error h
    exact .inl ⟨error, rfl⟩
  | ok _ after =>
    obtain ⟨-, _, bytes, _, same, rfl, rfl, hints⟩ := commits.of_ok h
    obtain ⟨_, written⟩ := after
    dsimp only at bytes same
    subst same
    refine .inr ⟨written, ?_, by rw [bytes, List.append_assoc], hints⟩
    rw [List.length_append, Output.length_toList]

theorem closeSummary_true_cases {output : Output} {before summary : Bytes} {start : Nat}
    (bytes : output.toList = before ++ List.replicate 2 0 ++ summary) :
    (∃ error after, closeSummary plan true
        ⟨⟨.summary (some ⟨before.length, .bits15⟩), start, none, 0⟩, output⟩ = .error error after ∧
        after.session.phase = .summary none) ∨
      ∃ after, closeSummary plan true
          ⟨⟨.summary (some ⟨before.length, .bits15⟩), start, none, 0⟩, output⟩ =
          .ok () ⟨⟨.entries, start,
            some (before ++ LengthForm.bits15.frame summary ++ plan.tail).length, 0⟩, after⟩ ∧
        after.toList = before ++ LengthForm.bits15.frame summary ++ plan.tail ++ List.replicate 2 0 ∧
        summary.length ≤ Varying.max15 ∧ ∀ hint ∈ plan.countHint, hint.toNat ≤ Varying.max30 := by
  change (∃ error after, (Drafting.write (LengthSlot.close ⟨before.length, .bits15⟩) >>= fun _ => _)
      ⟨⟨.summary none, start, none, 0⟩, output⟩ = .error error after ∧ _) ∨
    ∃ after, (Drafting.write (LengthSlot.close ⟨before.length, .bits15⟩) >>= fun _ => _)
      ⟨⟨.summary none, start, none, 0⟩, output⟩ = _ ∧ _
  rcases @LengthSlot.close_eq .bits15 _ _ _ bytes with
    ⟨fits, closed, wrote, -, closedBytes⟩ | ⟨-, failed⟩
  · rw [Program.bind_ok (Drafting.write_ok wrote)]
    rcases @closeTail_cases plan start closed with ⟨error, refused⟩ | ⟨after, tailed, afterBytes, hints⟩
    · exact .inl ⟨error, _, refused, rfl⟩
    · rw [closedBytes] at tailed afterBytes
      exact .inr ⟨after, tailed, afterBytes, fits, hints⟩
  · rw [Program.bind_error (Drafting.write_error failed)]
    exact .inl ⟨_, _, rfl, rfl⟩

theorem closeSummary_ok {output : Output} {before summary : Bytes} {start : Nat} {after : Draft}
    (bytes : output.toList = before ++ List.replicate 2 0 ++ summary)
    (h : closeSummary plan true
      ⟨⟨.summary (some ⟨before.length, .bits15⟩), start, none, 0⟩, output⟩ = .ok () after) :
    summary.length ≤ Varying.max15 ∧ (∀ hint ∈ plan.countHint, hint.toNat ≤ Varying.max30) ∧
      after.output.toList = before ++ LengthForm.bits15.frame summary ++ plan.tail
        ++ List.replicate 2 0 ∧
      after.session = ⟨.entries, start,
        some (before ++ LengthForm.bits15.frame summary ++ plan.tail).length, 0⟩ := by
  rcases @closeSummary_true_cases plan _ _ _ start bytes with
    ⟨error, failed, refused, -⟩ | ⟨last, closed, lastBytes, fits, hints⟩
  · cases refused.symm.trans h
  · cases closed.symm.trans h
    exact ⟨fits, hints, lastBytes, rfl⟩

/-- A summary that is dropped leaves a header that does not tell of one. -/
theorem closeSummary_false_cases {output : Output} {before summary : Bytes}
    (bytes : output.toList = before ++ (plan.head ++ List.replicate 2 0 ++ summary)) :
    let bare : Plan := { plan with summary := false }
    let session : Session :=
      ⟨.summary (some ⟨before.length + plan.head.length, .bits15⟩), before.length, none, 0⟩
    (∃ error after, closeSummary plan false ⟨session, output⟩ = .error error after ∧
        after.session.phase = .summary none) ∨
      ∃ after, closeSummary plan false ⟨session, output⟩ =
          .ok () ⟨⟨.entries, before.length, some (before ++ (bare.head ++ bare.tail)).length, 0⟩,
            after⟩ ∧
        after.toList = before ++ (bare.head ++ bare.tail) ++ List.replicate 2 0 ∧
        ∀ hint ∈ plan.countHint, hint.toNat ≤ Varying.max30 := by
  intro bare session
  -- The flags are the first byte of the header, and nothing else in it tells of a summary.
  obtain ⟨rest, head, bareHead⟩ : ∃ rest, plan.head = [plan.flags] ++ rest ∧
    bare.head = [bare.flags] ++ rest := ⟨_, rfl, rfl⟩
  have split : output.toList = before ++ [plan.flags] ++ rest ++ (List.replicate 2 0 ++ summary) := by
    rw [bytes, head]
    simp only [List.append_assoc]
  have kept : (output.cut (before.length + plan.head.length)).toList =
      before ++ [plan.flags] ++ rest := by
    rw [Output.toList_cut, split, head, ← List.length_append, ← List.append_assoc before,
      List.take_left]
  obtain ⟨patched, patch, -, patchedBytes⟩ := Write.patch_ok [bare.flags] kept rfl
  rw [List.append_assoc, ← bareHead] at patchedBytes
  have same : closeSummary plan false ⟨session, output⟩ = (do
      let countAt ← Drafting.write (Write.atomic plan.writeTail)
      Drafting.update fun session => { session with phase := .entries, countAt := some countAt } :
        Drafting Unit) ⟨⟨.summary none, before.length, none, 0⟩, patched⟩ :=
    Program.bind_ok (Drafting.write_ok patch)
  rw [same]
  rcases @closeTail_cases plan before.length patched with
    ⟨error, refused⟩ | ⟨after, tailed, afterBytes, hints⟩
  · exact .inl ⟨error, _, refused, rfl⟩
  · rw [patchedBytes, List.append_assoc before] at tailed afterBytes
    exact .inr ⟨after, tailed, afterBytes, hints⟩

/-- What stands in front of the rows of a table that has been started, whose summary is written if it
has one. -/
structure Started (plan : Plan) (output : Output) (summary : Bytes) (after : Draft) : Prop where
  fits : plan.Fits summary
  bytes : after.output.toList = output.toList ++ (plan.header summary ++ List.replicate 2 0)
  session : after.session = ⟨.entries, output.position,
    some (output.position + (plan.header summary).length), 0⟩

theorem started {output : Output} {after : Draft} (noSummary : plan.summary = false)
    (h : start plan ⟨{}, output⟩ = .ok () after) : Started plan output [] after := by
  obtain ⟨-, _, bytes, -, fits, rfl, session⟩ := (start_commits noSummary).of_ok h
  exact ⟨fits, bytes, session⟩

theorem started_summary {output : Output} {first second after : Draft} {writer : Write Unit}
    {summary : Bytes} {known : Prop} (hasSummary : plan.summary = true)
    (writes : Write.Extends writer fun _ _ added => added = summary ∧ known)
    (begun : start plan ⟨{}, output⟩ = .ok () first)
    (wrote : Drafting.write writer first = .ok () second)
    (closed : closeSummary plan true second = .ok () after) :
    known ∧ Started plan output summary after := by
  obtain ⟨-, _, firstBytes, -, ⟨container, definitions⟩, rfl, session⟩ :=
    (start_summary_commits hasSummary).of_ok begun
  obtain ⟨_, started⟩ := first
  dsimp only at firstBytes session
  subst session
  obtain ⟨-, _, secondBytes, same, made, holds⟩ := (Drafting.Extends.write writes).of_ok wrote
  obtain ⟨_, written⟩ := second
  dsimp only at secondBytes same
  subst same
  rw [made, firstBytes, ← List.append_assoc] at secondBytes
  rw [← Output.length_toList, ← List.length_append] at closed
  obtain ⟨summaryFits, hints, bytes, session⟩ := closeSummary_ok secondBytes closed
  have form : plan.summaryForm summary = LengthForm.bits15.frame summary := by
    simp [Plan.summaryForm, hasSummary]
  refine ⟨holds, ⟨container, definitions, fun _ => summaryFits, hints⟩, ?_, ?_⟩
  · rw [bytes, Plan.header, form]
    simp only [List.append_assoc]
  · rw [session, Plan.header, form, ← Output.length_toList]
    simp only [List.append_assoc, List.length_append]

end

/-! ## Reading a header -/

theorem containerType_code {type : DataType} (container : type.isContainer) (rest : Bytes) :
    Read.containerType (type.containerCode :: rest) = .ok type rest := by
  unfold Read.containerType
  rw [Program.bind_ok (Read.byte_cons _ _), DataType.ofContainerCode?_containerCode container]
  rfl

def Plan.readHeader (plan : Plan) (summary : Bytes) (count : Nat) : Header where
  flags := plan.flags
  rowType := plan.rowType
  setDefinitions := plan.setDefinitions
  summary := if plan.summary then some summary else none
  countHint := plan.countHint.map (·.toNat)
  count := count

theorem read_header {plan : Plan} {summary : Bytes} (fits : plan.Fits summary) {count : Nat}
    (few : count ≤ maxCount) (rows : Bytes) :
    Header.read (plan.form summary count rows) = .ok (plan.readHeader summary count) rows := by
  obtain ⟨container, definitions, summaryFits, hint⟩ := fits
  obtain ⟨hasDefinitions, hasSummary, hasHint, -⟩ := plan.flags_tell
  obtain ⟨counted, rfl, number⟩ := Read.count_ofNat few rows
  -- Each part of the header is read exactly when it was written.
  have readSummary : ∀ rest, Read.when plan.summary (Read.framed .bits15)
      (plan.summaryForm summary ++ rest) =
        .ok (if plan.summary then some summary else none) rest := by
    intro rest
    unfold Plan.summaryForm
    cases found : plan.summary with
    | false => rfl
    | true => exact Read.when_true (Read.framed_frame (summaryFits found) rest)
  have readHint : ∀ rest, Read.when plan.countHint.isSome Varying.read30 (plan.tail ++ rest) =
      .ok (plan.countHint.map (·.toNat)) rest := by
    intro rest
    unfold Plan.tail
    cases found : plan.countHint with
    | none => rfl
    | some value => exact Read.when_true (Varying.read30_form30 (hint value found) rest)
  unfold Header.read Plan.form Plan.header Plan.head
  simp only [List.append_assoc, List.cons_append, List.nil_append]
  rw [Program.bind_ok (Read.byte_cons _ _)]
  simp only [hasDefinitions, hasSummary, hasHint]
  rw [Program.bind_ok (containerType_code container _), Program.bind_ok (Read.when_frame definitions _),
    Program.bind_ok (readSummary _), Program.bind_ok (readHint _), Program.bind_ok number]
  rfl

end Table

namespace Series

open Labelled

theorem step_form {plan : Table.Plan} {payload : Bytes} (fits : PayloadFits plan.hasPayload payload)
    (rest : Bytes) :
    step plan.rowType (payloadForm plan.hasPayload payload ++ rest) =
      (.container plan.rowType payload, some rest) := by
  unfold step
  by_cases bare : plan.rowType = .noData
  · have none : plan.hasPayload = false := by simp [Table.Plan.hasPayload, bare]
    rw [none, if_pos bare, fits.empty none]
    rfl
  · have carries : plan.hasPayload = true := by simp [Table.Plan.hasPayload, bare]
    rw [carries, if_neg bare]
    dsimp only [payloadForm]
    rw [if_pos rfl, Read.framed_frame fits.length]

theorem decode_rows {α : Type} {plan : Table.Plan} {summary : Bytes} (fits : plan.Fits summary)
    {values : List α} {row : α → Bytes} (few : values.length ≤ Table.maxCount)
    (rows : ∀ value ∈ values, PayloadFits plan.hasPayload (row value)) :
    decode (plan.form summary values.length
        (values.flatMap fun value => payloadForm plan.hasPayload (row value))) =
      .ok ⟨plan.readHeader summary values.length,
        values.map fun value => .container plan.rowType (row value)⟩ := by
  have all := Entries.read_flatMap fun value member => step_form (rows value member)
  unfold decode
  apply @Read.all_ok _ _ _ [] _
  unfold read
  rw [Program.bind_ok (Table.read_header fits few _), ← all]
  rfl

theorem decode_form {α : Type} {plan : Table.Plan} {summary : Bytes} (fits : plan.Fits summary)
    (hasPayload : plan.rowType ≠ .noData) {values : List α} {row : α → Bytes}
    (few : values.length ≤ Table.maxCount) (rows : ∀ value ∈ values, (row value).length ≤ 0xFFFF) :
    decode (plan.form summary values.length
        (values.flatMap fun value => LengthForm.bits16.frame (row value))) =
      .ok ⟨plan.readHeader summary values.length,
        values.map fun value => .container plan.rowType (row value)⟩ := by
  have carries : plan.hasPayload = true := decide_eq_true hasPayload
  have decoded := decode_rows fits few fun value member =>
    ⟨rows value member, fun none => Bool.noConfusion (carries.symm.trans none)⟩
  rwa [carries] at decoded

end Series

namespace Vector

open Labelled

/-! ## Labels of a vector -/

structure Label where
  index : UInt32
  action : Action
  permission : Option Bytes
  deriving DecidableEq, Repr

namespace Label

def first (label : Label) : UInt8 :=
  (if label.permission.isSome then permissionFlag else 0) ||| label.action.code

def form (label : Label) : Bytes :=
  [label.first] ++ Varying.form30 label.index.toNat
    ++ label.permission.elim [] LengthForm.bits15.frame

structure Fits (plan : Table.Plan) (label : Label) : Prop where
  index : label.index.toNat ≤ Varying.max30
  permission : ∀ permission ∈ label.permission, permission.length ≤ Varying.max15
  permitted : label.permission.isSome → plan.permissions

theorem first_tells (label : Label) :
    Action.ofCode? (label.first &&& actionMask) = some label.action ∧
      decide (label.first &&& permissionFlag ≠ 0) = label.permission.isSome := by
  unfold first
  generalize label.permission.isSome = hasPermission
  generalize label.action = action
  revert hasPermission
  cases action <;> decide

end Label

theorem writeLabel_extends (plan : Table.Plan) (label : Label) :
    Write.Extends (writeLabel plan label.index label.action label.permission) fun _ _ added =>
      added = label.form ∧ label.Fits plan := by
  obtain ⟨index, action, permission⟩ := label
  refine Write.Extends.ite (fun _ => Write.Extends.throw _) fun near => ?_
  refine Write.Extends.ite (fun _ => Write.Extends.throw _) fun permitted => ?_
  have few : index.toNat ≤ Varying.max30 := Nat.le_of_not_lt near
  apply ((Write.byte_emits _).then_extends fun _ =>
    (Varying.write30_extends index.toNat).bind fun _ =>
      Write.framed?_extends .bits15 permission).mono
  rintro _ _ _ ⟨_, ⟨_, _, _, ⟨rfl, -⟩, ⟨rfl, fits⟩, rfl⟩, rfl⟩
  refine ⟨by simp only [Label.form, List.append_assoc]; rfl, few, fits, fun known => ?_⟩
  simpa [show permission.isSome = true from known] using permitted

theorem readIndex_form (label : Label) (few : label.index.toNat ≤ Varying.max30) (rest : Bytes) :
    readIndex (label.form ++ rest) = .ok (label.first, label.index.toNat)
      (label.permission.elim [] LengthForm.bits15.frame ++ rest) := by
  unfold readIndex Label.form
  simp only [List.append_assoc, List.cons_append, List.nil_append]
  rw [Program.bind_ok (Read.byte_cons _ _), Program.bind_ok (Varying.read30_form30 few _)]
  rfl

theorem readPayload_form {plan : Table.Plan} {label : Label} {payload : Bytes}
    (labelFits : label.Fits plan) (fits : PayloadFits (hasPayload plan label.action) payload)
    (rest : Bytes) :
    readPayload plan.rowType label.first label.action
        (label.permission.elim [] LengthForm.bits15.frame
          ++ (payloadForm (hasPayload plan label.action) payload ++ rest)) =
      .ok (label.permission, payload) rest := by
  have permission : Read.when (decide (label.first &&& permissionFlag ≠ 0)) (Read.framed .bits15)
      (label.permission.elim [] LengthForm.bits15.frame
        ++ (payloadForm (hasPayload plan label.action) payload ++ rest)) =
      .ok label.permission (payloadForm (hasPayload plan label.action) payload ++ rest) := by
    rw [label.first_tells.2]
    exact Read.when_frame labelFits.permission _
  have payload := Labelled.readPayload_form fits rest
  unfold readPayload
  rw [Program.bind_ok permission]
  change (if hasPayload plan label.action then _ else _ : Read (Option Bytes × Bytes)) _ = _
  by_cases carries : hasPayload plan label.action = true
  · rw [if_pos carries] at payload ⊢
    exact Program.bind_ok payload
  · rw [if_neg carries] at payload ⊢
    exact Program.bind_ok payload

/-! ## Entries of a vector -/

theorem step_form {plan : Table.Plan} {label : Label} {payload : Bytes} (labelFits : label.Fits plan)
    (fits : PayloadFits (hasPayload plan label.action) payload) (rest : Bytes) :
    step plan.rowType (label.form ++ payloadForm (hasPayload plan label.action) payload ++ rest) =
      (⟨label.index.toNat, some label.action, label.permission, .container plan.rowType payload⟩,
        some rest) := by
  unfold step
  dsimp only
  rw [List.append_assoc, readIndex_form label labelFits.index]
  dsimp only
  rw [label.first_tells.1]
  dsimp only
  rw [readPayload_form labelFits fits]

theorem decode_entries {α : Type} {plan : Table.Plan} {summary : Bytes} (fits : plan.Fits summary)
    {values : List α} {label : α → Label} {row : α → Bytes} (few : values.length ≤ Table.maxCount)
    (labels : ∀ value ∈ values, (label value).Fits plan)
    (rows : ∀ value ∈ values, PayloadFits (hasPayload plan (label value).action) (row value)) :
    decode (plan.form summary values.length (values.flatMap fun value =>
        (label value).form ++ payloadForm (hasPayload plan (label value).action) (row value))) =
      .ok ⟨plan.readHeader summary values.length, values.map fun value =>
        ⟨(label value).index.toNat, some (label value).action, (label value).permission,
          .container plan.rowType (row value)⟩⟩ := by
  have all := Entries.read_flatMap fun value member =>
    step_form (labels value member) (rows value member)
  unfold decode
  apply @Read.all_ok _ _ _ [] _
  unfold read
  rw [Program.bind_ok (Table.read_header fits few _), ← all]
  rfl

def entryForm (index : UInt32) (action : Action) (row : Bytes) : Bytes :=
  [action.code] ++ Varying.form30 index.toNat ++ LengthForm.bits16.frame row

theorem Label.form_none (index : UInt32) (action : Action) :
    Label.form ⟨index, action, none⟩ = [action.code] ++ Varying.form30 index.toNat := by
  have code : (0 : UInt8) ||| action.code = action.code := by cases action <;> rfl
  simp [Label.form, Label.first, code]

theorem decode_form {α : Type} {plan : Table.Plan} {summary : Bytes} (fits : plan.Fits summary)
    (hasPayload : plan.rowType ≠ .noData) {action : Action} (carries : action.hasPayload)
    {values : List α} {index : α → UInt32} {row : α → Bytes} (few : values.length ≤ Table.maxCount)
    (indices : ∀ value ∈ values, (index value).toNat ≤ Varying.max30)
    (rows : ∀ value ∈ values, (row value).length ≤ 0xFFFF) :
    decode (plan.form summary values.length
        (values.flatMap fun value => entryForm (index value) action (row value))) =
      .ok ⟨plan.readHeader summary values.length, values.map fun value =>
        ⟨(index value).toNat, some action, none, .container plan.rowType (row value)⟩⟩ := by
  have filled : Vector.hasPayload plan action = true := by
    simp [Vector.hasPayload, Table.Plan.hasPayload, carries, hasPayload]
  have decoded := @decode_entries α plan summary fits values (fun value => ⟨index value, action, none⟩)
    row few (fun value member => ⟨indices value member, by simp, by simp⟩)
    fun value member => ⟨rows value member, fun none => Bool.noConfusion (filled.symm.trans none)⟩
  simp only [Label.form_none, filled] at decoded
  exact decoded

end Vector

end MarketWire
