import MarketWire.Container.FilterList
import MarketWire.Proofs.LabelledRuns
import MarketWire.Proofs.Tables

/-! Filter lists come back from any sequence of calls that has written them.

An entry tells its type only where it is not that of the list, and whether a payload follows depends on
the type that holds in the end. The first byte of an entry tells a reader which parts are there.
-/

set_option autoImplicit false

namespace MarketWire.FilterList

open Labelled

/-! ## Headers -/

namespace Plan

def header (plan : Plan) : Bytes :=
  [plan.flags, plan.type.containerCode] ++ plan.countHint.elim [] ([·])

theorem flags_tell (plan : Plan) :
    decide (plan.flags &&& TableFlag.countHint ≠ 0) = plan.countHint.isSome := by
  unfold flags
  generalize plan.permissions = permissions
  generalize plan.countHint.isSome = countHint
  revert permissions countHint
  decide

end Plan

theorem start_commits {plan : Plan} {session : Session} :
    Drafting.Commits session (start plan) fun start _ after added =>
      session.phase = .idle ∧ plan.type.isContainer ∧ added = plan.header ++ List.replicate 1 0 ∧
        after = { session with
          start, phase := .entries, countAt := some (start + plan.header.length) } := by
  refine (Drafting.requireIdle_tests wording).then_commits fun _ idle => ?_
  refine Drafting.Commits.ite (fun _ => Drafting.Commits.throw_bind _) fun container => ?_
  refine Drafting.Commits.of_position fun start => ?_
  have container : plan.type.isContainer := Decidable.of_not_not container
  refine (@Drafting.Commits.write_update _ session _ (fun start countAt added =>
    countAt = start + plan.header.length ∧ added = plan.header ++ List.replicate 1 0) ?_ _).mono ?_
  · unfold Plan.header
    cases plan.countHint with
    | none =>
      apply ((Write.byte_emits _).then_extends fun _ => (Write.byte_emits _).then_extends fun _ =>
        (Write.Emits.pure ()).then_extends fun _ => Write.reserve_extends 1).mono
      rintro _ _ _ ⟨_, ⟨_, ⟨_, ⟨rfl, rfl⟩, rfl⟩, rfl⟩, rfl⟩
      exact ⟨rfl, rfl⟩
    | some hint =>
      apply ((Write.byte_emits _).then_extends fun _ => (Write.byte_emits _).then_extends fun _ =>
        (Write.byte_emits hint).then_extends fun _ => Write.reserve_extends 1).mono
      rintro _ _ _ ⟨_, ⟨_, ⟨_, ⟨rfl, rfl⟩, rfl⟩, rfl⟩, rfl⟩
      exact ⟨rfl, rfl⟩
  · rintro _ _ _ _ ⟨_, rfl, rfl, rfl⟩ rfl
    exact ⟨idle, container, rfl, rfl⟩

/-! ## Labels -/

structure Label where
  id : UInt8
  action : Action
  type : DataType
  permission : Option Bytes
  deriving DecidableEq, Repr

namespace Label

variable (plan : Plan) (label : Label)

def first : UInt8 :=
  (if label.permission.isSome then permissionFlag else 0)
    ||| (if label.type ≠ plan.type then typeFlag else 0) ||| label.action.code

def ownType? : Option DataType := if label.type ≠ plan.type then some label.type else none

def form : Bytes :=
  [label.first plan, label.id] ++ (label.ownType? plan).elim [] ([·.containerCode])
    ++ label.permission.elim [] LengthForm.bits15.frame

structure Fits : Prop where
  container : label.type.isContainer
  permission : ∀ permission ∈ label.permission, permission.length ≤ Varying.max15
  permitted : label.permission.isSome → plan.permissions

theorem first_tells :
    Action.ofCode? (label.first plan &&& actionMask) = some label.action ∧
      decide (label.first plan &&& typeFlag ≠ 0) = (label.ownType? plan).isSome ∧
      decide (label.first plan &&& permissionFlag ≠ 0) = label.permission.isSome := by
  have own : (label.ownType? plan).isSome = decide (label.type ≠ plan.type) := by
    unfold ownType?
    split <;> simp [*]
  rw [own]
  unfold first
  generalize label.permission.isSome = hasPermission
  generalize label.action = action
  by_cases same : label.type = plan.type
  · simp only [same, ne_eq, not_true, decide_false, if_false]
    revert hasPermission
    cases action <;> decide
  · simp only [same, ne_eq, not_false_eq_true, decide_true, if_true]
    revert hasPermission
    cases action <;> decide

theorem ownType?_getD : (label.ownType? plan).getD plan.type = label.type := by
  unfold ownType?
  by_cases same : label.type = plan.type
  · simp [same]
  · simp [same]

end Label

section
variable {plan : Plan} {label : Label}

theorem requireEntry_tests {session : Session} :
    Drafting.Tests session (requireEntry plan label.type label.permission) fun _ =>
      (session.phase = .entries ∧ session.count ≠ maxCount) ∧ label.type.isContainer ∧
        (label.permission.isSome → plan.permissions) := by
  refine (Drafting.requireEntries_tests wording).bind fun _ entries => ?_
  refine (Drafting.requireCount_tests maxCount).bind fun _ more => ?_
  refine Drafting.Tests.ite (fun _ => Drafting.Tests.throw _) fun container => ?_
  refine Drafting.Tests.ite (fun _ => Drafting.refuse_tests _) fun permitted => ?_
  exact Drafting.Tests.pure _ ⟨⟨entries, more⟩, Decidable.of_not_not container, by simpa using permitted⟩

theorem writeLabel_extends :
    Write.Extends (writeLabel plan label.id label.action label.type label.permission)
      fun _ _ added => added = label.form plan ∧
        ∀ permission ∈ label.permission, permission.length ≤ Varying.max15 := by
  have permission := Write.framed?_extends .bits15 label.permission
  unfold writeLabel Label.form Label.ownType? Label.first
  by_cases same : label.type = plan.type
  · simp only [same, ne_eq, not_true, if_false]
    apply ((Write.byte_emits _).then_extends fun _ => (Write.byte_emits _).then_extends fun _ =>
      (Write.Emits.pure ()).then_extends fun _ => permission).mono
    rintro _ _ _ ⟨_, ⟨_, ⟨_, ⟨rfl, fits⟩, rfl⟩, rfl⟩, rfl⟩
    exact ⟨rfl, fits⟩
  · simp only [same, ne_eq, not_false_eq_true, if_true]
    apply ((Write.byte_emits _).then_extends fun _ => (Write.byte_emits _).then_extends fun _ =>
      (Write.byte_emits _).then_extends fun _ => permission).mono
    rintro _ _ _ ⟨_, ⟨_, ⟨_, ⟨rfl, fits⟩, rfl⟩, rfl⟩, rfl⟩
    exact ⟨rfl, fits⟩

theorem readLabel_form (fits : label.Fits plan) (rest : Bytes) :
    readLabel (label.form plan ++ rest) =
      .ok (label.first plan, label.id, label.ownType? plan, label.permission) rest := by
  obtain ⟨-, ownType, permission⟩ := label.first_tells plan
  have readType : ∀ rest, Read.when (label.ownType? plan).isSome Read.containerType
      ((label.ownType? plan).elim [] ([·.containerCode]) ++ rest) =
        .ok (label.ownType? plan) rest := by
    intro rest
    unfold Label.ownType?
    split
    · exact Read.when_true (Table.containerType_code fits.container rest)
    · rfl
  unfold readLabel Label.form
  simp only [List.append_assoc, List.cons_append, List.nil_append]
  rw [Program.bind_ok (Read.byte_cons _ _), Program.bind_ok (Read.byte_cons _ _), ownType,
    Program.bind_ok (readType _), permission, Program.bind_ok (Read.when_frame fits.permission _)]
  rfl

/-! ## Entries -/

def itemEntry (item : Item Label) : Entry :=
  ⟨item.label.id, some item.label.action, item.label.type, item.label.permission,
    .container item.label.type item.payload⟩

theorem step_form {payload : Bytes} (labelFits : label.Fits plan)
    (fits : PayloadFits (hasPayload label.action label.type) payload) (rest : Bytes) :
    step plan.type (label.form plan ++ payloadForm (hasPayload label.action label.type) payload
        ++ rest) = (itemEntry ⟨label, payload⟩, some rest) := by
  have type := label.ownType?_getD plan
  unfold step
  dsimp only
  rw [List.append_assoc, readLabel_form labelFits]
  dsimp only
  rw [(label.first_tells plan).1]
  dsimp only
  rw [type]
  cases carries : hasPayload label.action label.type with
  | false =>
    rw [carries] at fits
    rw [fits.empty rfl]
    rfl
  | true =>
    dsimp only [payloadForm]
    rw [if_pos rfl, if_pos rfl, Read.framed_frame fits.length]
    rfl

end

/-! ## Runs -/

abbrev Call := Labelled.Call Label Empty

def format (plan : Plan) : Format Label Empty where
  wording
  countWidth := 1
  maxCount
  hasSummary := false
  start := start plan
  closeSummary := nofun
  commits := nofun
  add label := add plan label.id label.action label.type label.permission
  openEntry label := openEntry plan label.id label.action label.type label.permission
  carries label := hasPayload label.action label.type
  head := []
  header _ := plan.header
  labelForm label := label.form plan
  HeadFits := True
  HeaderFits _ := plan.type.isContainer
  LabelFits label := label.Fits plan

instance (plan : Plan) : (format plan).Lawful where
  start_commits := by
    intro session
    apply start_commits.mono
    rintro start _ _ _ ⟨idle, container, rfl, rfl⟩
    refine ⟨idle, ?_⟩
    rintro rfl
    exact ⟨rfl, rfl, container⟩
  closeSummary_refuses := nofun
  closeSummary_cases := nofun
  add_commits := by
    intro session label payload
    apply (add_commits requireEntry_tests writeLabel_extends _ payload).mono
    rintro _ _ _ _ ⟨⟨⟨entries, more⟩, container, permitted⟩, rfl, rfl, permission, fits⟩
    exact ⟨⟨entries, more⟩, rfl, rfl, ⟨⟨container, permission, permitted⟩, fits⟩⟩
  openEntry_commits := by
    intro session label
    apply (openEntry_commits requireEntry_tests writeLabel_extends _).mono
    rintro _ _ _ _ ⟨⟨⟨entries, more⟩, container, permitted⟩, rfl, rfl, permission⟩
    exact ⟨⟨entries, more⟩, rfl, rfl, ⟨container, permission, permitted⟩⟩

theorem read_count {n : Nat} (few : n ≤ maxCount) (rest : Bytes) : ∃ count : UInt8, count.toNat = n ∧
    Read.byte (Bytes.ofNat 1 n ++ rest) = .ok count rest := by
  refine ⟨UInt8.ofNat n, ?_, ?_⟩
  · exact UInt8.toNat_ofNat_of_lt' (Nat.lt_succ_of_le few)
  · rfl

theorem read_form {plan : Plan} (container : plan.type.isContainer) {n : Nat} (few : n ≤ maxCount)
    (entries : Bytes) :
    read (plan.header ++ Bytes.ofNat 1 n ++ entries) =
      .ok ⟨plan.type, plan.countHint, n, Entries.read (step plan.type) n entries⟩ [] := by
  obtain ⟨count, counted, number⟩ := read_count few entries
  have readHint : ∀ rest, Read.when plan.countHint.isSome Read.byte
      (plan.countHint.elim [] ([·]) ++ rest) = .ok plan.countHint rest := by
    intro rest
    cases plan.countHint <;> rfl
  unfold read Plan.header
  simp only [List.append_assoc, List.cons_append, List.nil_append]
  rw [Program.bind_ok (Read.byte_cons _ _),
    Program.bind_ok (Table.containerType_code container _), plan.flags_tell,
    Program.bind_ok (readHint _), Program.bind_ok number, ← counted]
  rfl

/-- A filter list is read as its writer has been called; entries that clear a filter and those of the
type of no data are empty. -/
theorem decode_ended_filters (plan : Plan) (output : Output) (calls : List Call)
    (allowed : (Run.start output).allowsAll (format plan) calls) {final : Draft}
    (ended : finish true (Run.calls (format plan) (.start output) calls).draft = .ok () final) :
    let items := (Run.calls (format plan) (.start output) calls).journal.items
    items.length ≤ 255 ∧
      (∀ item ∈ items, item.label.action = .clear ∨ item.label.type = .noData → item.payload = []) ∧
      decode (final.output.toList.drop output.position) =
        .ok ⟨plan.type, plan.countHint, items.length, items.map itemEntry⟩ := by
  intro items
  obtain ⟨⟨container, few, each⟩, bytes⟩ := form_of_ended allowed ended
  refine ⟨few, fun item member bare => (each item member).payload.empty ?_, ?_⟩
  · change hasPayload item.label.action item.label.type = false
    rcases bare with clear | blank <;> simp [hasPayload, *]
  · have steps : ∀ item ∈ items, ∀ rest,
        step plan.type ((format plan).itemForm item ++ rest) = (itemEntry item, some rest) :=
      fun item member => step_form (each item member).label (each item member).payload
    rw [bytes, ← Entries.read_flatMap steps]
    exact Read.all_ok (read_form container few _)

/-! Views of an instrument behind a byte that was there before. -/

def viewPlan : Plan where
  type := .fieldList
  permissions := true
  countHint := some 9

def viewOutput : Output := ⟨#[0xAA], 40, by decide⟩

/-- A primitive type is refused, one entry is dropped, and what a clear is given is left out. -/
def viewCalls : List Call :=
  [.start, .add ⟨1, .update, .fieldList, none⟩ [4], .add ⟨2, .set, .int, none⟩ [4],
    .openEntry ⟨2, .set, .elementList, some [1, 2]⟩, .append [9], .closeEntry false,
    .openEntry ⟨2, .set, .elementList, some [1, 2]⟩, .append [8], .append [7], .closeEntry true,
    .add ⟨1, .clear, .map, none⟩ [1], .openEntry ⟨3, .update, .noData, none⟩, .closeEntry true]

theorem decode_ended_filters_view : ∃ final,
    finish true (Run.calls (format viewPlan) (.start viewOutput) viewCalls).draft = .ok () final ∧
      decode (final.output.toList.drop 1) = .ok ⟨.fieldList, some 9, 4,
        [⟨1, some .update, .fieldList, none, .container .fieldList [4]⟩,
          ⟨2, some .set, .elementList, some [1, 2], .container .elementList [8, 7]⟩,
          ⟨1, some .clear, .map, none, .container .map []⟩,
          ⟨3, some .update, .noData, none, .container .noData []⟩]⟩ := by
  have allowed : (Run.start viewOutput).allowsAll (format viewPlan) viewCalls := by decide +kernel
  have journal : (Run.calls (format viewPlan) (.start viewOutput) viewCalls).journal =
      ⟨none, [⟨⟨1, .update, .fieldList, none⟩, [4]⟩,
        ⟨⟨2, .set, .elementList, some [1, 2]⟩, [8, 7]⟩, ⟨⟨1, .clear, .map, none⟩, []⟩,
        ⟨⟨3, .update, .noData, none⟩, []⟩], .nothing⟩ := by decide +kernel
  have ends : Program.succeeds (finish true)
      (Run.calls (format viewPlan) (.start viewOutput) viewCalls).draft := by decide +kernel
  obtain ⟨⟨⟩, final, ended⟩ := Program.exists_of_succeeds ends
  obtain ⟨-, -, decoded⟩ := decode_ended_filters viewPlan viewOutput viewCalls allowed ended
  rw [journal] at decoded
  exact ⟨final, ended, decoded⟩

end MarketWire.FilterList
