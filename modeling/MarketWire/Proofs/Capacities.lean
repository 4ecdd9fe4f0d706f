import MarketWire.Proofs.Parts

/-! Nothing that is written makes an output larger.

The room that there is in all for an output is the same before and behind every step, also behind one
that fails. So a part never takes more bytes than there were for it.
-/

set_option autoImplicit false

namespace MarketWire

/-- A program on an output leaves the room that there is in all. -/
def Write.KeepsRoom {α : Type} (writer : Write α) : Prop :=
  ∀ capacity, Program.Keeps (fun output : Output => output.capacity = capacity) writer

def Drafting.KeepsRoom {α : Type} (step : Drafting α) : Prop :=
  ∀ capacity, Program.Keeps (fun draft : Draft => draft.output.capacity = capacity) step

namespace Write

theorem Extends.keepsRoom {α : Type} {writer : Write α} {post : Nat → α → Bytes → Prop}
    (extending : Extends writer post) : KeepsRoom writer := by
  intro capacity output held
  have told := extending output
  unfold Program.after
  cases h : writer output with
  | ok value after =>
    rw [h] at told
    exact told.1.trans held
  | error error after =>
    rw [h] at told
    exact told.1.trans held

theorem patch_keepsRoom (start : Nat) (replacement : Bytes) : KeepsRoom (patch start replacement) := by
  rintro capacity ⟨written, room, fits⟩ held
  unfold Program.after patch
  dsimp only
  by_cases inside : start + replacement.length ≤ written.size
  · rw [if_pos inside]
    exact held
  · rw [if_neg inside]
    exact held

theorem shiftLeft_keepsRoom (start count : Nat) : KeepsRoom (shiftLeft start count) := by
  rintro capacity ⟨written, room, fits⟩ held
  unfold Program.after shiftLeft
  dsimp only
  by_cases inside : start + count ≤ written.size
  · rw [dif_pos inside]
    exact held
  · rw [dif_neg inside]
    exact held

end Write

theorem LengthSlot.close_keepsRoom (slot : LengthSlot) : slot.close.KeepsRoom := by
  intro capacity
  have counted : slot.payloadLength.KeepsRoom := fun capacity =>
    (Write.position_extends.keepsRoom capacity).bind fun _ => Program.Keeps.pure _
  refine (counted capacity).bind fun length => ?_
  refine Program.Keeps.ite (fun _ => ?_) fun _ => Program.Keeps.throw _
  exact (Write.patch_keepsRoom _ _ capacity).bind fun _ => Write.shiftLeft_keepsRoom _ _ capacity

namespace Drafting

theorem write_keepsRoom {α : Type} {writer : Write α} (keeps : writer.KeepsRoom) :
    KeepsRoom (write writer) := by
  rintro capacity ⟨session, output⟩ held
  have kept := keeps capacity output held
  unfold Program.after at kept ⊢
  cases h : writer output with
  | ok value after =>
    rw [h] at kept
    rw [write_ok h]
    exact kept
  | error error after =>
    rw [h] at kept
    rw [write_error h]
    exact kept

theorem update_keepsRoom (change : Session → Session) : KeepsRoom (update change) :=
  fun _ _ held => held

theorem session_keepsRoom : KeepsRoom session := fun _ _ held => held

theorem Extends.keepsRoom {α : Type} {step : Drafting α}
    {post : Session → Nat → α → Session → Bytes → Prop}
    (extending : ∀ session, Extends session step (post session)) : KeepsRoom step := by
  rintro capacity ⟨session, output⟩ held
  have told := extending session output
  unfold Program.after
  cases h : step ⟨session, output⟩ with
  | ok value after =>
    rw [h] at told
    exact told.1.trans held
  | error error after =>
    rw [h] at told
    exact told.1.trans held

theorem Tests.keepsRoom {α : Type} {step : Drafting α} {known : Session → α → Prop}
    (tests : ∀ session, Tests session step (known session)) : KeepsRoom step := by
  rintro capacity ⟨session, output⟩ held
  have told := tests session output
  unfold Program.after
  cases h : step ⟨session, output⟩ with
  | ok value after =>
    rw [h] at told
    rw [told.1]
    exact held
  | error error after =>
    rw [h] at told
    rw [told]
    exact held

end Drafting

namespace Table

theorem start_keepsRoom (plan : Plan) : Drafting.KeepsRoom (start plan) := by
  intro capacity
  have idle := Drafting.Tests.keepsRoom fun _ => Drafting.requireIdle_tests wording
  have position := Drafting.write_keepsRoom Write.position_extends.keepsRoom
  refine (idle capacity).bind fun _ => Program.Keeps.ite (fun _ => ?_) fun _ => ?_
  · exact fun _ held => held
  refine (position capacity).bind fun _ => Program.Keeps.ite (fun _ => ?_) fun _ => ?_
  · have header := (@writeHead_extends plan).bind fun _ => LengthSlot.reserve_extends .bits15
    exact (Drafting.write_keepsRoom header.atomic.keepsRoom capacity).bind fun _ =>
      Drafting.update_keepsRoom _ capacity
  · have header := (@writeHead_extends plan).bind fun _ => @writeTail_extends plan
    exact (Drafting.write_keepsRoom header.atomic.keepsRoom capacity).bind fun _ =>
      Drafting.update_keepsRoom _ capacity

theorem closeSummary_keepsRoom (plan : Plan) : Drafting.KeepsRoom (closeSummary plan true) := by
  intro capacity
  have tail := Drafting.write_keepsRoom (@writeTail_extends plan).atomic.keepsRoom
  refine (Drafting.session_keepsRoom capacity).bind fun session => ?_
  split
  · refine (Drafting.update_keepsRoom _ capacity).bind fun _ => ?_
    refine (Drafting.write_keepsRoom (LengthSlot.close_keepsRoom _) capacity).bind fun _ => ?_
    exact (tail capacity).bind fun _ => Drafting.update_keepsRoom _ capacity
  · exact fun _ held => held

theorem finish_keepsRoom : Drafting.KeepsRoom (finish true) := by
  intro capacity
  refine (Drafting.session_keepsRoom capacity).bind fun session => ?_
  split
  · exact fun _ held => held
  · exact fun _ held => held
  · contradiction
  · dsimp only
    split
    · exact (Drafting.write_keepsRoom (Write.patch_keepsRoom _ _) capacity).bind fun _ =>
        Drafting.update_keepsRoom _ capacity
    · exact Drafting.update_keepsRoom _ capacity
  · exact fun _ held => held

end Table

namespace Part

variable {α : Type} {source : Source α} {plan : Table.Plan}

def Publishing.KeepsRoom {β : Type} (program : Publishing β) : Prop :=
  ∀ capacity, Program.Keeps (fun draft : Draft => draft.output.capacity = capacity) program

theorem draft_keepsRoom {β : Type} {step : Drafting β} (keeps : step.KeepsRoom) :
    Publishing.KeepsRoom (draft step) := by
  intro capacity before held
  have kept := keeps capacity before held
  unfold Program.after draft at *
  cases h : step before with
  | ok value after =>
    rw [h] at kept
    exact kept
  | error error after =>
    rw [h] at kept
    exact kept

theorem addRows_keepsRoom {items : List α} (writes : ∀ item ∈ items, source.Writes plan item) :
    Publishing.KeepsRoom (addRows plan (items.map source.row)) := by
  intro capacity
  induction items with
  | nil => exact Program.Keeps.pure none
  | cons item rest ih =>
    obtain ⟨opens, content⟩ := writes item List.mem_cons_self
    have row := Drafting.Extends.keepsRoom fun session =>
      (addRow_commits opens content session).extends
    have others := ih fun other member => writes other (List.mem_cons_of_mem _ member)
    intro before held
    have kept := row capacity before held
    rw [List.map_cons]
    unfold Program.after at kept ⊢
    simp only [addRows]
    cases h : addRow plan (source.row item) before with
    | ok value middle =>
      rw [h] at kept
      exact others middle kept
    | error error middle =>
      rw [h] at kept
      cases error with
      | bufferTooSmall =>
        by_cases zero : middle.session.count = 0
        · simp only [if_pos zero]
          exact kept
        · simp only [if_neg zero]
          exact kept
      | _ => exact kept

theorem publish_keepsRoom {items : List α} (writes : ∀ item ∈ items, source.Writes plan item)
    {summary : Write Unit} (summarizes : summary.KeepsRoom) :
    Publishing.KeepsRoom (publish plan summary (items.map source.row)) := by
  intro capacity
  have ending : Publishing.KeepsRoom (do
      let next? ← addRows plan (items.map source.row)
      draft (Table.finish true)
      return next?) := fun capacity =>
    (addRows_keepsRoom writes capacity).bind fun _ =>
      (draft_keepsRoom Table.finish_keepsRoom capacity).bind fun _ => Program.Keeps.pure _
  refine (draft_keepsRoom (Table.start_keepsRoom plan) capacity).bind fun _ => ?_
  refine Program.Keeps.ite (fun _ => ?_) fun _ => ending capacity
  refine (draft_keepsRoom (Drafting.write_keepsRoom summarizes) capacity).bind fun _ => ?_
  exact (draft_keepsRoom (Table.closeSummary_keepsRoom plan) capacity).bind fun _ => ending capacity

theorem length_le_of_encode {items : List α} (writes : ∀ item ∈ items, source.Writes plan item)
    {summary : Write Unit} (summarizes : summary.KeepsRoom) {cursor : Int32} {capacity : Nat} {part : Part}
    (h : encode cursor capacity plan summary (items.map source.row) = .ok part) :
    part.bytes.length ≤ capacity := by
  have kept := publish_keepsRoom writes summarizes capacity ⟨{}, .empty capacity⟩ rfl
  unfold encode at h
  unfold Program.after at kept
  cases published : publish plan summary (items.map source.row) ⟨{}, .empty capacity⟩ with
  | error error after =>
    rw [published] at h
    cases h
  | ok next? after =>
    rw [published] at h kept
    cases h
    rw [← kept, Output.length_toList]
    exact after.output.size_le

end Part
end MarketWire
