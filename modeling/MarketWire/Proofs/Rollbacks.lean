import Mathlib.Logic.Relation
import MarketWire.Proofs.Writers

/-! Undoing what was written.

All that a writer remembers are positions behind its own start, and all that it overwrites, moves or cuts
off stands there. So what the output held before stays as long as only writers are at work that were
started since, whether their calls succeed or fail: a container that is not committed leaves the output as
it was before its header, and an entry that is not committed leaves it as it was before the entry.
-/

set_option autoImplicit false

namespace MarketWire

open Program (Keeps)

/-! ## Bytes at the front -/

structure Output.Holds (front : Bytes) (capacity : Nat) (output : Output) : Prop where
  bytes : front <+: output.toList
  room : output.capacity = capacity

theorem Output.Holds.le_position {front : Bytes} {capacity : Nat} {output : Output}
    (held : output.Holds front capacity) : front.length ≤ output.position := by
  rw [← Output.length_toList]
  exact held.bytes.length_le

theorem Output.Holds.cut_eq {before after : Output} (held : after.Holds before.toList before.capacity) :
    after.cut before.position = before :=
  Output.cut_eq held.room held.bytes

section
variable {front : Bytes} {capacity : Nat}

namespace Write

variable {α : Type} {writer : Write α}

theorem Extends.holds {post : Nat → α → Bytes → Prop} (extending : Extends writer post) :
    Keeps (Output.Holds front capacity) writer := by
  intro output held
  unfold Program.after
  cases h : writer output with
  | ok value after =>
    obtain ⟨room, added, bytes, -⟩ := extending.of_ok h
    exact ⟨held.bytes.trans (bytes ▸ List.prefix_append _ _), room.trans held.room⟩
  | error error after =>
    obtain ⟨room, kept⟩ := extending.of_error h
    exact ⟨held.bytes.trans kept, room.trans held.room⟩

theorem toList_overwrite_take (written : Array UInt8) {start n : Nat} (replacement : Bytes)
    (behind : n ≤ start) :
    (overwrite written start replacement).toList.take n = written.toList.take n := by
  induction replacement generalizing written start with
  | nil => rfl
  | cons byte rest ih =>
    rw [overwrite, ih _ (Nat.le_succ_of_le behind), Array.toList_setIfInBounds,
      List.take_set_of_le behind]

theorem patch_holds {start : Nat} (replacement : Bytes) (behind : front.length ≤ start) :
    Keeps (Output.Holds front capacity) (patch start replacement) := by
  rintro ⟨written, room, fits⟩ held
  unfold Program.after patch
  dsimp only
  by_cases inside : start + replacement.length ≤ written.size
  · rw [if_pos inside]
    refine ⟨?_, held.room⟩
    have same := toList_overwrite_take written replacement behind
    have kept : front = written.toList.take front.length := List.prefix_iff_eq_take.mp held.bytes
    exact List.prefix_iff_eq_take.mpr (kept.trans same.symm)
  · rw [if_neg inside]
    exact held

theorem shiftLeft_holds {start : Nat} (count : Nat) (behind : front.length ≤ start) :
    Keeps (Output.Holds front capacity) (shiftLeft start count) := by
  rintro ⟨written, room, fits⟩ held
  unfold Program.after shiftLeft
  dsimp only
  by_cases inside : start + count ≤ written.size
  · rw [dif_pos inside]
    refine ⟨?_, held.room⟩
    have kept : front <+: written.toList.take start :=
      List.prefix_take_iff.mpr ⟨held.bytes, behind⟩
    simp only [Output.toList, Array.toList_append, Array.toList_shrink]
    exact kept.trans (List.prefix_append _ _)
  · rw [dif_neg inside]
    exact held

end Write

theorem Output.Holds.cut {output : Output} (held : output.Holds front capacity) {start : Nat}
    (behind : front.length ≤ start) : (output.cut start).Holds front capacity where
  bytes := by
    rw [Output.toList_cut]
    exact List.prefix_take_iff.mpr ⟨held.bytes, behind⟩
  room := (Output.capacity_cut output start).trans held.room

theorem Write.rewind_holds {start : Nat} (behind : front.length ≤ start) :
    Keeps (Output.Holds front capacity) (Write.rewind start) :=
  fun _ held => held.cut behind

theorem Write.atomicFrom_holds {α : Type} {writer : Write α} {start : Nat} (behind : front.length ≤ start)
    (keeps : Keeps (Output.Holds front capacity) writer) :
    Keeps (Output.Holds front capacity) (Write.atomicFrom start writer) := by
  intro output held
  have kept := keeps output held
  unfold Program.after at kept ⊢
  unfold Write.atomicFrom
  cases h : writer output with
  | ok value after =>
    rw [h] at kept
    exact kept
  | error error after =>
    rw [h] at kept
    exact kept.cut behind

theorem LengthSlot.close_holds {slot : LengthSlot} (behind : front.length ≤ slot.start) :
    Keeps (Output.Holds front capacity) slot.close := by
  have counted : Keeps (Output.Holds front capacity) slot.payloadLength := fun _ held => held
  refine counted.bind fun length => ?_
  refine Keeps.ite (fun _ => ?_) fun _ => Keeps.throw _
  refine (Write.patch_holds _ behind).bind fun _ => ?_
  exact Write.shiftLeft_holds _ (Nat.le_trans behind (Nat.le_add_right _ _))

end

/-! ## Containers that were started -/

/-- A container was started at a position, and all that it remembers lies behind so many bytes. -/
structure Session.Holds (n start : Nat) (session : Session) : Prop where
  begun : session.phase ≠ .idle
  start : session.start = start
  countAt : ∀ position ∈ session.countAt, n ≤ position
  phase : session.phase.Behind n

structure Draft.Holds (front : Bytes) (capacity start : Nat) (draft : Draft) : Prop where
  output : draft.output.Holds front capacity
  session : draft.session.Holds front.length start

section
variable {front : Bytes} {capacity start : Nat} {session : Session}

namespace Drafting

theorem write_holds {α : Type} {writer : Write α} (keeps : Keeps (Output.Holds front capacity) writer) :
    Keeps (Draft.Holds front capacity start) (write writer) := by
  rintro ⟨session, output⟩ held
  have kept := keeps output held.output
  unfold Program.after at kept ⊢
  cases h : writer output with
  | ok value after =>
    rw [h] at kept
    rw [write_ok h]
    exact ⟨kept, held.session⟩
  | error error after =>
    rw [h] at kept
    rw [write_error h]
    exact ⟨kept, held.session⟩

theorem update_holds {change : Session → Session}
    (changes : ∀ session, session.Holds front.length start → (change session).Holds front.length start) :
    Keeps (Draft.Holds front capacity start) (update change) :=
  fun _ held => ⟨held.output, changes _ held.session⟩

theorem enter_holds {phase : Phase} (begun : phase ≠ .idle) (behind : phase.Behind front.length) :
    Keeps (Draft.Holds front capacity start) (enter phase) :=
  update_holds fun _ held => ⟨begun, held.start, held.countAt, behind⟩

theorem write_update_holds {writer : Write Nat} {change : Nat → Session → Session}
    (extending : Write.Extends writer fun here position _ => here ≤ position)
    (changes : ∀ position session, front.length ≤ position → session.Holds front.length start →
      (change position session).Holds front.length start) :
    Keeps (Draft.Holds front capacity start)
      (write writer >>= fun position => update (change position)) := by
  rintro ⟨session, output⟩ held
  have kept := extending.holds output held.output
  unfold Program.after at kept ⊢
  cases h : writer output with
  | ok position after =>
    obtain ⟨-, -, -, later⟩ := extending.of_ok h
    rw [h] at kept
    rw [Program.bind_ok (write_ok h)]
    exact ⟨kept, changes _ _ (Nat.le_trans held.output.le_position later) held.session⟩
  | error error after =>
    rw [h] at kept
    rw [Program.bind_error (write_error h)]
    exact ⟨kept, held.session⟩

theorem Commits.after_cases {α : Type} {step : Drafting α} {draft : Draft}
    {post : Nat → α → Session → Bytes → Prop} (commits : Commits draft.session step post)
    (held : draft.output.Holds front capacity) :
    (Program.after step draft).output.Holds front capacity ∧
      ((Program.after step draft).session = draft.session ∨ ∃ position value added,
        front.length ≤ position ∧ post position value (Program.after step draft).session added) := by
  unfold Program.after
  cases h : step draft with
  | ok value after =>
    obtain ⟨room, added, bytes, told⟩ := commits.of_ok h
    refine ⟨⟨?_, room.trans held.room⟩, .inr ⟨_, value, added, held.le_position, told⟩⟩
    exact held.bytes.trans (bytes ▸ List.prefix_append _ _)
  | error error after =>
    obtain rfl := commits.of_error h
    exact ⟨held, .inl rfl⟩

theorem Commits.holds {α : Type} {step : Drafting α} {draft : Draft}
    {post : Nat → α → Session → Bytes → Prop} (commits : Commits draft.session step post)
    (held : draft.Holds front capacity start)
    (next : ∀ position value after added, front.length ≤ position → post position value after added →
      after.Holds front.length start) :
    (Program.after step draft).Holds front capacity start := by
  obtain ⟨output, same | ⟨position, value, added, later, told⟩⟩ := commits.after_cases held.output
  · exact ⟨output, same ▸ held.session⟩
  · exact ⟨output, next position value _ added later told⟩

end Drafting

theorem Drafting.closeEntry_holds (wording : Wording) (commit : Bool) :
    Keeps (Draft.Holds front capacity start) (Drafting.closeEntry wording commit) := by
  rintro ⟨⟨phase, began, countAt, count⟩, output⟩ held
  cases phase with
  | entry opened slot? =>
    obtain ⟨openedBehind, slotBehind⟩ := held.session.phase
    have entered := @enter_holds front capacity start .entries (by simp) trivial
    have counts : Keeps (Draft.Holds front capacity start) countEntry :=
      update_holds fun _ held => ⟨held.begun, held.start, held.countAt, held.phase⟩
    have dropped : Keeps (Draft.Holds front capacity start) (write (Write.rewind opened)) :=
      write_holds (Write.rewind_holds openedBehind)
    cases slot? with
    | none =>
      have closes : Keeps (Draft.Holds front capacity start) (do
          enter .entries
          if commit then countEntry else write (Write.rewind opened)) :=
        entered.bind fun _ => Keeps.ite (fun _ => counts) fun _ => dropped
      exact closes _ held
    | some slot =>
      have closed : Keeps (Output.Holds front capacity) slot.close :=
        LengthSlot.close_holds (slotBehind slot rfl)
      have closes : Keeps (Draft.Holds front capacity start) (do
          enter .entries
          if commit then
            write (Write.atomicFrom opened slot.close)
            countEntry
          else write (Write.rewind opened)) := by
        refine entered.bind fun _ => Keeps.ite (fun _ => ?_) fun _ => dropped
        exact (write_holds (Write.atomicFrom_holds openedBehind closed)).bind fun _ => counts
      exact closes _ held
  | _ => exact held

theorem Drafting.finish_holds (behind : front.length ≤ start) (wording : Wording) (width : Nat)
    (commit : Bool) : Keeps (Draft.Holds front capacity start) (Drafting.finish wording width commit) := by
  rintro ⟨⟨phase, began, countAt, count⟩, output⟩ held
  obtain rfl : began = start := held.session.start
  have done := @enter_holds front capacity began .done nofun trivial
  have undone : Keeps (Draft.Holds front capacity began) (do
      write (Write.rewind began)
      enter .done) :=
    (write_holds (Write.rewind_holds behind)).bind fun _ => done
  cases commit with
  | false =>
    cases phase with
    | idle | done => exact held
    | _ => exact undone _ held
  | true =>
    cases phase with
    | entries =>
      cases countAt with
      | none => exact done _ held
      | some position =>
        have patched : Keeps (Output.Holds front capacity) (Write.patchNumber position width count) :=
          Write.patch_holds _ (held.session.countAt position rfl)
        exact ((write_holds patched).bind fun _ => done) _ held
    | _ => exact held

theorem ItemArray.finish_holds (behind : front.length ≤ start) (commit : Bool) :
    Keeps (Draft.Holds front capacity start) (ItemArray.finish commit) := by
  rintro ⟨⟨phase, began, countAt, count⟩, output⟩ held
  obtain rfl : began = start := held.session.start
  have done := @Drafting.enter_holds front capacity began .done nofun trivial
  cases phase with
  | entries =>
    cases commit with
    | false =>
      exact (done.bind fun _ => Drafting.write_holds (Write.rewind_holds behind)) _ held
    | true =>
      cases countAt with
      | none => exact done _ held
      | some position =>
        have patched : Keeps (Output.Holds front capacity) (Write.patchNumber position 2 count) :=
          Write.patch_holds _ (held.session.countAt position rfl)
        exact (done.bind fun _ => Drafting.write_holds patched) _ held
  | _ => exact held

theorem Table.closeSummary_holds (behind : front.length ≤ start) (plan : Table.Plan) (commit : Bool) :
    Keeps (Draft.Holds front capacity start) (closeSummary plan commit) := by
  rintro ⟨⟨phase, began, countAt, count⟩, output⟩ held
  obtain rfl : began = start := held.session.start
  cases phase with
  | summary slot? =>
    cases slot? with
    | none => exact held
    | some slot =>
      have slotBehind : front.length ≤ slot.start := held.session.phase slot rfl
      have entered := @Drafting.enter_holds front capacity began (.summary none) nofun nofun
      have tail : Keeps (Draft.Holds front capacity began) (do
          let countAt ← Drafting.write (Write.atomic plan.writeTail)
          Drafting.update fun session =>
            { session with phase := .entries, countAt := some countAt }) := by
        refine Drafting.write_update_holds (writeTail_extends.atomic.mono ?_) ?_
        · rintro here _ _ ⟨rfl, -⟩
          exact Nat.le_add_right _ _
        · intro position session later held
          refine ⟨nofun, held.start, ?_, trivial⟩
          rintro _ ⟨⟩
          exact later
      cases commit with
      | true =>
        have closed := @LengthSlot.close_holds front capacity slot slotBehind
        exact (entered.bind fun _ => (Drafting.write_holds closed).bind fun _ => tail) _ held
      | false =>
        have abandoned : Keeps (Output.Holds front capacity) slot.abandon := Write.rewind_holds slotBehind
        have patched := @Write.patch_holds front capacity _ [{ plan with summary := false }.flags] behind
        exact (entered.bind fun _ => (Drafting.write_holds abandoned).bind fun _ =>
          (Drafting.write_holds patched).bind fun _ => tail) _ held
  | _ => exact held

namespace Record

variable {κ Info Name : Type} [RecordFormat κ Info Name]

theorem closeSet_holds (plan : Plan κ Info) {slot? : Option LengthSlot}
    (behind : ∀ slot ∈ slot?, front.length ≤ slot.start) :
    Keeps (Draft.Holds front capacity start) (closeSet plan slot?) := by
  have entered := @Drafting.enter_holds front capacity start .entries nofun trivial
  have counted : Keeps (Draft.Holds front capacity start) (do
      let position ← Drafting.write (Write.reserve 2)
      Drafting.update ({ · with countAt := some position })) := by
    refine Drafting.write_update_holds ((Write.reserve_extends 2).mono ?_) ?_
    · rintro here _ _ ⟨rfl, -⟩
      exact Nat.le_refl _
    · intro position session later held
      refine ⟨held.begun, held.start, ?_, held.phase⟩
      rintro _ ⟨⟩
      exact later
  have ends : Keeps (Draft.Holds front capacity start) (do
      if plan.standard then
        let position ← Drafting.write (Write.reserve 2)
        Drafting.update ({ · with countAt := some position })
      Drafting.enter .entries) := by
    cases plan.standard with
    | false => exact entered
    | true =>
      have both := counted.bind fun _ => entered
      rw [bind_assoc] at both
      exact both
  cases slot? with
  | none => exact ends
  | some slot =>
    have closed := @LengthSlot.close_holds front capacity slot (behind slot rfl)
    exact (Drafting.write_holds closed).bind fun _ => ends

theorem add_holds {τ : Type} [EntryTag κ τ] [LawfulRecordFormat κ Info Name τ] [DecidableEq κ]
    (plan : Plan κ Info) (key : κ) (value : Primitive) :
    Keeps (Draft.Holds front capacity start) (add plan key value) := by
  rintro ⟨⟨phase, began, countAt, count⟩, output⟩ held
  by_cases set : ∃ written slot, phase = .setData written slot
  · obtain ⟨written, slot?, rfl⟩ := set
    have slotBehind : ∀ slot ∈ slot?, front.length ≤ slot.start := held.session.phase
    change (Program.after (addSetEntry plan written slot? key value) _).Holds front capacity start
    by_cases taken : ∃ expected, plan.Takes written key value output expected
    · obtain ⟨expected, takes⟩ := taken
      obtain ⟨after, -, room, bytes, run⟩ := addSetEntry_takes takes
      have next : Draft.Holds front capacity start
          ⟨⟨.setData (written + 1) slot?, began, countAt, count⟩, after⟩ := by
        refine ⟨⟨?_, room.trans held.output.room⟩, nofun, held.session.start, held.session.countAt, slotBehind⟩
        exact held.output.bytes.trans (bytes ▸ List.prefix_append _ _)
      have ends : Keeps (Draft.Holds front capacity start)
          (if written + 1 = plan.setEntries.size then closeSet plan slot? else pure ()) :=
        Keeps.ite (fun _ => closeSet_holds plan slotBehind) fun _ => Keeps.pure ()
      have kept := ends _ next
      unfold Program.after at kept ⊢
      rwa [run]
    · obtain ⟨error, run⟩ := addSetEntry_refuses (not_exists.mp taken)
      unfold Program.after
      rw [run]
      exact held
  · have commits := @add_commits κ Info Name τ _ _ _ plan ⟨phase, began, countAt, count⟩ _ key value
      fun written slot setData => set ⟨written, slot, setData⟩
    refine commits.holds held ?_
    rintro _ _ _ _ - ⟨-, rfl, -⟩
    exact ⟨held.session.begun, held.session.start, held.session.countAt, held.session.phase⟩

end Record

/-! ## Calls -/

namespace ContainerPlan

variable {plan : ContainerPlan}

theorem opened_holds {n : Nat} (held : session.Holds n start) {here : Nat} (later : n ≤ here)
    (label : plan.Label) : (plan.opened session here label).Holds n start := by
  refine ⟨nofun, held.start, held.countAt, later, ?_⟩
  unfold Labelled.payloadSlot?
  intro place told
  split at told <;> cases told
  exact Nat.le_trans later (Nat.le_add_right _ _)

theorem Call.holds (behind : front.length ≤ start) (call : Call plan) :
    Keeps (Draft.Holds front capacity start) call.steps := by
  intro draft held
  by_cases plain : call.IsPlain draft.session
  · refine (steps_commits plain).holds held ?_
    intro position _ after _ later leads
    cases call with
    | start => exact absurd leads.idle held.session.begun
    | add | addValue =>
      obtain ⟨-, rfl⟩ := leads
      exact ⟨held.session.begun, held.session.start, held.session.countAt, held.session.phase⟩
    | openEntry label =>
      obtain ⟨-, rfl⟩ := leads
      exact opened_holds held.session later label
    | append =>
      obtain rfl : after = draft.session := leads
      exact held.session
    | closeSummary | closeEntry | finish => exact leads.elim
  · cases call with
    | start | add | openEntry | append => exact absurd trivial plain
    | closeSummary how =>
      cases plan with
      | series plan | vector plan => exact Table.closeSummary_holds behind plan how _ held
      | fieldList | elementList | filterList | itemArray => exact nomatch how
    | addValue key value =>
      cases plan with
      | fieldList plan => exact Record.add_holds plan key value _ held
      | elementList plan => exact Record.add_holds plan key value _ held
      | itemArray plan => exact absurd id plain
      | series | vector | filterList => exact nomatch key
    | closeEntry commit =>
      obtain ⟨wording, eq⟩ := plan.closeEntry_eq commit
      change (Program.after (plan.closeEntry commit) draft).Holds front capacity start
      rw [eq]
      exact Drafting.closeEntry_holds wording commit _ held
    | finish commit =>
      cases plan with
      | itemArray plan => exact ItemArray.finish_holds behind commit _ held
      | _ => exact Drafting.finish_holds behind _ _ commit _ held

structure BehindFront (front : Bytes) (capacity : Nat) (draft : Draft) : Prop where
  output : draft.output.Holds front capacity
  session : draft.session.Behind front.length

theorem Call.behindFront (call : Call plan) : Keeps (BehindFront front capacity) call.steps := by
  intro draft held
  by_cases idle : draft.session.phase = .idle
  · cases closes : call.closes with
    | false =>
      have plain : call.IsPlain draft.session :=
        .of_phase closes (by simp [idle]) (by simp [idle])
      obtain ⟨output, same | ⟨position, _, _, later, leads⟩⟩ := (steps_commits plain).after_cases held.output
      · exact ⟨output, same ▸ held.session⟩
      · refine ⟨output, ?_⟩
        cases call with
        | start => exact leads.behind _ later held.session
        | append => exact leads ▸ held.session
        | add | addValue | openEntry => exact absurd (idle.symm.trans leads.1) nofun
        | closeSummary | closeEntry | finish => exact leads.elim
    | true =>
      -- Nothing is closed before the start.
      obtain ⟨⟨_, start, countAt, count⟩, output⟩ := draft
      cases idle
      cases call with
      | closeEntry commit | finish commit => cases plan <;> exact held
      | _ => cases closes
  · have begun : draft.Holds front capacity draft.session.start :=
      ⟨held.output, idle, rfl, held.session.countAt, held.session.phase⟩
    have kept := call.holds (held.session.start idle) draft begun
    exact ⟨kept.output, fun _ => kept.session.start ▸ held.session.start idle, kept.session.countAt,
      kept.session.phase⟩

end ContainerPlan

end

/-! ## Containers on one output -/

structure Layer where
  plan : ContainerPlan
  session : Session

/-- How far the writing of a container has got, the writers of others that were started since, and the
output that all of them write to. -/
structure Desk where
  session : Session
  others : List Layer := []
  output : Output

namespace Desk

def of (draft : Draft) : Desk := ⟨draft.session, [], draft.output⟩

def draft (desk : Desk) : Draft := ⟨desk.session, desk.output⟩

section
variable (plan : ContainerPlan) (allowed : ContainerPlan.Call plan → Prop)

/-- One call, of the container itself as far as it is allowed or of any other writer, or another writer
that joins. Calls may fail. -/
inductive Moves : Desk → Desk → Prop
  | call {desk : Desk} (call : ContainerPlan.Call plan) (admitted : allowed call) :
      Moves desk ⟨(Program.after call.steps desk.draft).session, desk.others,
        (Program.after call.steps desk.draft).output⟩
  | join {desk : Desk} (other : ContainerPlan) :
      Moves desk { desk with others := ⟨other, {}⟩ :: desk.others }
  | other {session : Session} {first back : List Layer} {layer : Layer} {output : Output}
      (call : ContainerPlan.Call layer.plan) :
      Moves ⟨session, first ++ layer :: back, output⟩
        ⟨session, first ++ ⟨layer.plan, (Program.after call.steps ⟨layer.session, output⟩).session⟩ :: back,
          (Program.after call.steps ⟨layer.session, output⟩).output⟩

abbrev Reaches : Desk → Desk → Prop := Relation.ReflTransGen (Moves plan allowed)

end

/-- The output holds the bytes at the front, and no other writer remembers a position before their end. -/
structure Holds (front : Bytes) (capacity : Nat) (desk : Desk) : Prop where
  output : desk.output.Holds front capacity
  others : ∀ layer ∈ desk.others, layer.session.Behind front.length

variable {plan : ContainerPlan} {front : Bytes} {capacity start : Nat}
  {allowed : ContainerPlan.Call plan → Prop} {desk next : Desk}

theorem Holds.of {draft : Draft} (held : draft.output.Holds front capacity) :
    (Desk.of draft).Holds front capacity where
  output := held
  others _ none := absurd none List.not_mem_nil

theorem Holds.join (held : desk.Holds front capacity) (other : ContainerPlan) :
    Holds front capacity { desk with others := ⟨other, {}⟩ :: desk.others } where
  output := held.output
  others := by
    have fresh : Session.Behind {} front.length := ⟨fun begun => absurd rfl begun, nofun, trivial⟩
    exact List.forall_mem_cons.mpr ⟨fresh, held.others⟩

theorem Holds.other {session : Session} {first back : List Layer} {layer : Layer} {output : Output}
    (held : Holds front capacity ⟨session, first ++ layer :: back, output⟩)
    (call : ContainerPlan.Call layer.plan) :
    Holds front capacity
      ⟨session, first ++ ⟨layer.plan, (Program.after call.steps ⟨layer.session, output⟩).session⟩ :: back,
        (Program.after call.steps ⟨layer.session, output⟩).output⟩ := by
  obtain ⟨before, others⟩ := List.forall_mem_append.mp held.others
  obtain ⟨own, behind⟩ := List.forall_mem_cons.mp others
  have kept := call.behindFront ⟨layer.session, output⟩ ⟨held.output, own⟩
  refine ⟨kept.output, List.forall_mem_append.mpr ⟨before, List.forall_mem_cons.mpr ⟨?_, behind⟩⟩⟩
  exact kept.session

/-! ## Containers that are not committed -/

/-- A container that was started keeps its start, and all is done behind it. -/
theorem Moves.holds (behind : front.length ≤ start) (move : Moves plan allowed desk next)
    (held : desk.Holds front capacity) (begun : desk.session.Holds front.length start) :
    next.Holds front capacity ∧ next.session.Holds front.length start := by
  cases move with
  | call call =>
    have kept := call.holds behind desk.draft ⟨held.output, begun⟩
    exact ⟨⟨kept.output, held.others⟩, kept.session⟩
  | join other => exact ⟨held.join other, begun⟩
  | other call => exact ⟨held.other call, begun⟩

theorem Reaches.holds (behind : front.length ≤ start) (reached : Reaches plan allowed desk next)
    (held : desk.Holds front capacity) (begun : desk.session.Holds front.length start) :
    next.Holds front capacity ∧ next.session.Holds front.length start := by
  induction reached with
  | refl => exact ⟨held, begun⟩
  | tail _ move ih => exact move.holds behind ih.1 ih.2

end Desk

theorem Drafting.finish_false_cuts {wording : Wording} {width : Nat} {draft final : Draft}
    (ended : Drafting.finish wording width false draft = .ok () final) :
    final.output = draft.output.cut draft.session.start := by
  obtain ⟨⟨phase, start, countAt, count⟩, output⟩ := draft
  cases phase <;> cases ended <;> rfl

namespace ContainerPlan

variable {plan : ContainerPlan}

theorem finish_false_cuts {draft final : Draft} (ended : plan.finish false draft = .ok () final) :
    final.output = draft.output.cut draft.session.start := by
  cases plan with
  | itemArray plan =>
    obtain ⟨⟨phase, start, countAt, count⟩, output⟩ := draft
    cases phase <;> cases ended
    rfl
  | _ => exact Drafting.finish_false_cuts ended

/-- What a start leaves is what was there and a container behind it. -/
theorem start_holds {output : Output} {started : Draft} (begun : plan.start ⟨{}, output⟩ = .ok () started) :
    started.Holds output.toList output.capacity output.position := by
  obtain ⟨room, added, bytes, begins⟩ := start_commits.of_ok begun
  have fresh : Session.Behind {} output.position := ⟨fun begun => absurd rfl begun, nofun, trivial⟩
  have behind := begins.behind _ (Nat.le_refl _) fresh
  have front : output.toList <+: started.output.toList := bytes ▸ List.prefix_append _ _
  rw [← Output.length_toList] at behind
  exact ⟨⟨front, room⟩, begins.begun, begins.here, behind.countAt, behind.phase⟩

/-! ## Entries that are not committed -/

/-- What an opened entry leaves is what was there and the entry behind it. -/
theorem openEntry_holds {label : plan.Label} {draft opened : Draft}
    (begun : plan.openEntry label draft = .ok () opened) :
    opened.output.Holds draft.output.toList draft.output.capacity ∧
      ∃ slot, opened.session = { draft.session with phase := .entry draft.output.position slot } := by
  obtain ⟨room, added, bytes, -, same, -⟩ := (openEntry_commits label).of_ok begun
  have front : draft.output.toList <+: opened.output.toList := bytes ▸ List.prefix_append _ _
  exact ⟨⟨front, room⟩, _, same⟩

namespace Call

def closesEntry : Call plan → Bool
  | .closeEntry _ => true
  | _ => false

/-- While an entry is open, and behind the end of a container, calls only append bytes; but the container
may still be ended. -/
theorem waits {call : Call plan} (other : call.closesEntry = false) {draft : Draft}
    (phase : draft.session.phase = .done ∨ ∃ start slot, draft.session.phase = .entry start slot)
    {front : Bytes} {capacity : Nat} (held : draft.output.Holds front capacity) :
    (Program.after call.steps draft).session.phase = .done ∨
      (Program.after call.steps draft).session = draft.session ∧
        (Program.after call.steps draft).output.Holds front capacity := by
  cases closes : call.closes with
  | false =>
    have plain : call.IsPlain draft.session := by
      rcases phase with done | ⟨start, slot, entry⟩
      · exact .of_phase closes (by simp [done]) (by simp [done])
      · exact .of_phase closes (by simp [entry]) (by simp [entry])
    obtain ⟨output, same | ⟨position, _, _, -, leads⟩⟩ := (steps_commits plain).after_cases held
    · exact .inr ⟨same, output⟩
    · cases call with
      | append => exact .inr ⟨leads, output⟩
      | start => rcases phase with done | ⟨start, slot, entry⟩ <;> simp_all [leads.idle]
      | add | addValue | openEntry => rcases phase with done | ⟨start, slot, entry⟩ <;> simp_all [leads.1]
      | closeSummary | closeEntry | finish => exact leads.elim
  | true =>
    obtain ⟨⟨current, start, countAt, count⟩, output⟩ := draft
    obtain rfl | ⟨opened, slot, rfl⟩ : current = .done ∨ ∃ opened slot, current = .entry opened slot := phase
    · cases call with
      | finish commit => cases plan <;> exact .inl rfl
      | closeEntry => cases other
      | _ => cases closes
    · cases call with
      | finish commit =>
        cases plan with
        | itemArray plan => exact .inr ⟨rfl, held⟩
        | _ => cases commit with
          | false => exact .inl rfl
          | true => exact .inr ⟨rfl, held⟩
      | closeEntry => cases other
      | _ => cases closes

end Call

/-- A container whose entry is open is as it was when the entry was opened, with bytes behind it, unless it
has been ended. -/
theorem reaches_waits {opened : Session} {start : Nat} {slot : Option LengthSlot} {front : Bytes}
    {capacity : Nat} {desk later : Desk}
    (reached : Desk.Reaches plan (fun call => call.closesEntry = false) desk later)
    (entry : opened.phase = .entry start slot) (same : desk.session = opened)
    (held : desk.Holds front capacity) :
    later.session.phase = .done ∨ later.session = opened ∧ later.Holds front capacity := by
  induction reached with
  | refl => exact .inr ⟨same, held⟩
  | @tail now _ _ move ih =>
    cases move with
    | call call other =>
      rcases ih with done | ⟨same, held⟩
      · have nothing : now.output.Holds [] now.output.capacity := ⟨List.nil_prefix, rfl⟩
        rcases @Call.waits plan call other now.draft (.inl done) _ _ nothing with ended | ⟨kept, -⟩
        · exact .inl ended
        · exact .inl (kept ▸ done)
      · have isOpen : now.draft.session.phase = .entry start slot := by
          rw [← entry, ← same]
          rfl
        have waits := @Call.waits plan call other now.draft (.inr ⟨start, slot, isOpen⟩) _ _ held.output
        exact waits.imp_right fun ⟨kept, output⟩ => ⟨kept.trans same, output, held.others⟩
    | join other => exact ih.imp_right fun ⟨same, held⟩ => ⟨same, held.join other⟩
    | other call => exact ih.imp_right fun ⟨same, held⟩ => ⟨same, held.other call⟩

theorem closeEntry_false_cuts {draft closed : Draft} (ended : plan.closeEntry false draft = .ok () closed) :
    ∃ start slot, draft.session.phase = .entry start slot ∧ closed.output = draft.output.cut start ∧
      closed.session.count = draft.session.count := by
  obtain ⟨wording, eq⟩ := plan.closeEntry_eq false
  rw [eq] at ended
  obtain ⟨⟨phase, start, countAt, count⟩, output⟩ := draft
  cases phase with
  | entry opened slot =>
    cases ended
    exact ⟨opened, slot, rfl, rfl, rfl⟩
  | _ => cases ended

/-- Whatever has been done on an output since a container was started, a container that is not committed
leaves it as it was before. The same is true of an entry, which is not counted either. -/
theorem rollback_restores {output : Output} {started : Draft} {desk : Desk}
    (begun : plan.start ⟨{}, output⟩ = .ok () started)
    (reached : Desk.Reaches plan (fun _ => True) (.of started) desk) :
    (∀ final, plan.finish false desk.draft = .ok () final → final.output = output) ∧
      ∀ label opened later closed, plan.openEntry label desk.draft = .ok () opened →
        Desk.Reaches plan (fun call => call.closesEntry = false) (.of opened) later →
        plan.closeEntry false later.draft = .ok () closed →
          closed.output = desk.output ∧ closed.session.count = desk.session.count := by
  constructor
  · intro final ended
    have held := start_holds begun
    have behind : output.toList.length ≤ output.position := Nat.le_of_eq output.length_toList
    obtain ⟨kept, session⟩ := reached.holds behind (.of held.output) held.session
    have start : desk.draft.session.start = output.position := session.start
    rw [finish_false_cuts ended, start]
    exact kept.output.cut_eq
  · intro label opened later closed entryBegun entryReached ended
    obtain ⟨held, slot, entry⟩ := openEntry_holds entryBegun
    obtain ⟨start, slot', phase, cut, count⟩ := closeEntry_false_cuts ended
    have openPhase : opened.session.phase = .entry desk.output.position slot := by
      rw [entry]
      rfl
    rcases reaches_waits entryReached openPhase rfl (.of held) with done | ⟨same, kept⟩
    · exact nomatch done.symm.trans phase
    · have isOpen : later.session.phase = .entry desk.output.position slot := same ▸ openPhase
      obtain ⟨rfl, -⟩ := Phase.entry.inj (phase.symm.trans isOpen)
      constructor
      · rw [cut]
        exact kept.output.cut_eq
      · rw [count]
        change later.session.count = _
        rw [same, entry]
        rfl

/-- A field list is begun in the row of a vector behind other bytes. Neither it nor the row is left when the
row is not committed, nor the vector when it is not. -/
theorem rollback_restores_row :
    let plan : ContainerPlan := .vector { rowType := .fieldList }
    let output : Output := ⟨#[1, 2, 3], 64, by decide⟩
    ∃ started opened later closed final,
      plan.start ⟨{}, output⟩ = .ok () started ∧ plan.openEntry ⟨7, .set, none⟩ started = .ok () opened ∧
      Desk.Reaches plan (fun call => call.closesEntry = false) (.of opened) later ∧
      later.others.map (·.session.start) = [opened.output.position] ∧
      opened.output.position < later.output.position ∧
      plan.closeEntry false later.draft = .ok () closed ∧
      closed.output = started.output ∧ closed.session.count = started.session.count ∧
      plan.finish false opened = .ok () final ∧ final.output = output := by
  intro plan output
  let row : Call plan := .openEntry ⟨7, .set, none⟩
  let started := Program.after plan.start ⟨{}, output⟩
  let opened := Program.after row.steps started
  let nested : ContainerPlan := .fieldList {}
  let later : Desk :=
    let inner := Program.after nested.start ⟨{}, opened.output⟩
    ⟨opened.session, [⟨nested, inner.session⟩], inner.output⟩
  have begun := @Program.ok_after _ _ ⟨{}, output⟩ plan.start (by decide +kernel)
  have entry := @Program.ok_after _ _ started row.steps (by decide +kernel)
  have closed := @Program.ok_after _ _ later.draft (plan.closeEntry false) (by decide +kernel)
  have ended := @Program.ok_after _ _ opened (plan.finish false) (by decide +kernel)
  have reached : Desk.Reaches plan (fun call => call.closesEntry = false) (.of opened) later :=
    .tail (.single (.join nested)) (@Desk.Moves.other plan _ opened.session [] [] ⟨nested, {}⟩ opened.output .start)
  have rowReached : Desk.Reaches plan (fun _ => True) (.of started) (.of opened) :=
    .single (.call row trivial)
  have entryRestores := (rollback_restores begun .refl).2 _ opened later _ entry reached closed
  refine ⟨started, opened, later, _, _, begun, entry, reached, ?_, ?_, closed, entryRestores.1,
    entryRestores.2, ended, (rollback_restores begun rowReached).1 _ ended⟩
  · decide +kernel
  · decide +kernel

end ContainerPlan

end MarketWire
