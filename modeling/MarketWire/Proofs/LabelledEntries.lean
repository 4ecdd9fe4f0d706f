import MarketWire.Container.Table
import MarketWire.Proofs.Drafts

/-! Containers whose entries stand behind labels: series, vectors and filter lists.

The label of an entry is all that is written before its payload, which some entries do not have. The
kinds of containers differ in their headers and labels; what a step does to an entry is told once for
all of them.
-/

set_option autoImplicit false

namespace MarketWire.Labelled

/-! ## Payloads -/

def payloadForm (carries : Bool) (payload : Bytes) : Bytes :=
  if carries then LengthForm.bits16.frame payload else []

def payloadRoom (carries : Bool) : Bytes :=
  if carries then List.replicate LengthForm.bits16.reserved 0 else []

def payloadSlot? (carries : Bool) (start : Nat) : Option LengthSlot :=
  if carries then some ⟨start, .bits16⟩ else none

/-- What is left of a payload in an entry that may carry none. -/
def keptPayload (carries : Bool) (payload : Bytes) : Bytes := if carries then payload else []

structure PayloadFits (carries : Bool) (payload : Bytes) : Prop where
  length : payload.length ≤ LengthForm.bits16.max
  empty : carries = false → payload = []

theorem PayloadFits.of_empty (carries : Bool) : PayloadFits carries [] :=
  ⟨Nat.zero_le _, fun _ => rfl⟩

theorem writePayload_extends (carries : Bool) (payload : Bytes) :
    Write.Extends (if carries then Write.framed .bits16 payload else pure ()) fun _ _ added =>
      added = payloadForm carries (keptPayload carries payload) ∧
        PayloadFits carries (keptPayload carries payload) := by
  cases carries with
  | false => exact (Write.Emits.pure ()).mono fun _ _ _ none => ⟨none, .of_empty false⟩
  | true =>
    apply (Write.framed_extends .bits16 payload).mono
    rintro _ _ _ ⟨rfl, length⟩
    exact ⟨rfl, length, fun none => Bool.noConfusion none⟩

theorem reservePayload_extends (carries : Bool) :
    Write.Extends (Table.Plan.reservePayload carries) fun start slot added =>
      slot = payloadSlot? carries start ∧ added = payloadRoom carries := by
  cases carries with
  | false => exact Write.Extends.pure none
  | true => exact LengthSlot.some_reserve_extends .bits16

theorem readPayload_form {carries : Bool} {payload : Bytes} (fits : PayloadFits carries payload)
    (rest : Bytes) :
    (if carries then Read.framed .bits16 else pure []) (payloadForm carries payload ++ rest) =
      .ok payload rest := by
  cases carries with
  | false =>
    rw [fits.empty rfl]
    rfl
  | true => exact Read.framed_frame fits.length rest

section
variable {session : Session} {output : Output} {before label payload : Bytes} (wording : Wording)

theorem closeEntry_refuses (commit : Bool)
    (noEntry : ∀ start slot, session.phase ≠ .entry start slot) :
    ∃ error, Drafting.closeEntry wording commit ⟨session, output⟩ = .error error ⟨session, output⟩ := by
  obtain ⟨phase, start, countAt, count⟩ := session
  cases phase with
  | entry start slot => exact absurd rfl (noEntry start slot)
  | _ => exact ⟨_, rfl⟩

theorem closeEntry_discards (slot : Option LengthSlot) {written : Bytes}
    (bytes : output.toList = before ++ written) :
    ∃ after, Drafting.closeEntry wording false
        ⟨{ session with phase := .entry before.length slot }, output⟩ =
          .ok () ⟨{ session with phase := .entries }, after⟩ ∧ after.toList = before := by
  refine ⟨output.cut before.length, Drafting.closeEntry_false _ _, ?_⟩
  rw [Output.toList_cut, bytes, List.take_left]

/-- An entry that is too long is dropped. -/
theorem closeEntry_commits {carries : Bool} (empty : carries = false → payload = [])
    (bytes : output.toList = before ++ (label ++ payloadRoom carries ++ payload)) :
    (∃ after, Drafting.closeEntry wording true
        ⟨{ session with
            phase := .entry before.length (payloadSlot? carries (before.length + label.length)) },
          output⟩ = .ok () ⟨{ session with phase := .entries, count := session.count + 1 }, after⟩ ∧
        after.toList = before ++ (label ++ payloadForm carries payload) ∧
        PayloadFits carries payload) ∨
      ∃ error after, Drafting.closeEntry wording true
        ⟨{ session with
            phase := .entry before.length (payloadSlot? carries (before.length + label.length)) },
          output⟩ = .error error ⟨{ session with phase := .entries }, after⟩ ∧
        after.toList = before := by
  cases carries with
  | false =>
    rw [empty rfl] at bytes ⊢
    refine .inl ⟨output, rfl, ?_, .of_empty false⟩
    simpa [payloadRoom, payloadForm] using bytes
  | true =>
    change output.toList = before ++ (label ++ List.replicate _ 0 ++ payload) at bytes
    rw [← List.append_assoc, ← List.append_assoc] at bytes
    rw [← List.length_append]
    rcases LengthSlot.close_eq bytes with ⟨fits, after, closed, -, afterBytes⟩ | ⟨-, failed⟩
    · refine .inl ⟨after, Drafting.closeEntry_ok _ closed, ?_, fits, empty⟩
      rw [afterBytes, List.append_assoc]
      rfl
    · refine .inr ⟨_, _, Drafting.closeEntry_error _ failed, ?_⟩
      rw [Output.toList_cut, bytes, List.append_assoc, List.append_assoc, List.take_left]

end

/-! ## Entries -/

section
variable {session : Session} {require : Drafting Unit} {known : Prop} {writeLabel : Write Unit}
  {label : Bytes} {fits : Prop}

theorem add_commits (tests : Drafting.Tests session require fun _ => known)
    (writes : Write.Extends writeLabel fun _ _ added => added = label ∧ fits) (carries : Bool)
    (payload : Bytes) :
    Drafting.Commits session (do
      require
      Drafting.addEntry do
        writeLabel
        if carries then Write.framed .bits16 payload) fun _ _ after added =>
      known ∧ after = { session with count := session.count + 1 } ∧
        added = label ++ payloadForm carries (keptPayload carries payload) ∧ fits ∧
        PayloadFits carries (keptPayload carries payload) := by
  apply tests.then_commits
  rintro _ holds
  apply (Drafting.addEntry_commits (writes.bind fun _ => writePayload_extends carries payload)).mono
  rintro _ _ _ _ ⟨same, _, _, _, ⟨rfl, labelFits⟩, ⟨rfl, payloadFits⟩, rfl⟩
  exact ⟨holds, same, rfl, labelFits, payloadFits⟩

theorem openEntry_commits (tests : Drafting.Tests session require fun _ => known)
    (writes : Write.Extends writeLabel fun _ _ added => added = label ∧ fits) (carries : Bool) :
    Drafting.Commits session (do
      require
      Drafting.openEntry do
        writeLabel
        Table.Plan.reservePayload carries) fun start _ after added =>
      known ∧ after =
          { session with phase := .entry start (payloadSlot? carries (start + label.length)) } ∧
        added = label ++ payloadRoom carries ∧ fits := by
  apply tests.then_commits
  rintro _ holds
  apply (Drafting.openEntry_commits (writes.bind fun _ => reservePayload_extends carries)).mono
  rintro _ _ _ _ ⟨_, rfl, _, _, _, ⟨rfl, labelFits⟩, ⟨rfl, rfl⟩, rfl⟩
  exact ⟨holds, rfl, rfl, labelFits⟩

end

/-! ## Kinds of containers -/

structure Item (ρ : Type) where
  label : ρ
  payload : Bytes
  deriving DecidableEq, Repr

/-- The steps of the writer of a kind of containers and the bytes that come of them. The labels are of
the type `ρ`, and `σ` tells how a summary is closed. -/
structure Format (ρ σ : Type) where
  wording : Wording
  countWidth : Nat
  maxCount : Nat
  hasSummary : Bool
  start : Drafting Unit
  closeSummary : σ → Drafting Unit
  commits : σ → Bool
  add : ρ → Bytes → Drafting Unit
  openEntry : ρ → Drafting Unit
  carries : ρ → Bool
  head : Bytes
  header : Option Bytes → Bytes
  labelForm : ρ → Bytes
  HeadFits : Prop
  HeaderFits : Option Bytes → Prop
  LabelFits : ρ → Prop

namespace Format

variable {ρ σ : Type} (format : Format ρ σ)

def closeEntry (commit : Bool) : Drafting Unit := Drafting.closeEntry format.wording commit

def finish (commit : Bool) : Drafting Unit :=
  Drafting.finish format.wording format.countWidth commit

def item (label : ρ) (payload : Bytes) : Item ρ :=
  ⟨label, keptPayload (format.carries label) payload⟩

def itemForm (item : Item ρ) : Bytes :=
  format.labelForm item.label ++ payloadForm (format.carries item.label) item.payload

structure ItemFits (item : Item ρ) : Prop where
  label : format.LabelFits item.label
  payload : PayloadFits (format.carries item.label) item.payload

def form (summary : Option Bytes) (items : List (Item ρ)) : Bytes :=
  format.header summary ++ Bytes.ofNat format.countWidth items.length ++ items.flatMap format.itemForm

def unsealed (summary : Option Bytes) (items : List (Item ρ)) : Bytes :=
  format.header summary ++ List.replicate format.countWidth 0 ++ items.flatMap format.itemForm

structure Fits (summary : Option Bytes) (items : List (Item ρ)) : Prop where
  header : format.HeaderFits summary
  count : items.length ≤ format.maxCount
  each : ∀ item ∈ items, format.ItemFits item

structure Accepts (session : Session) : Prop where
  phase : session.phase = .entries
  more : session.count ≠ format.maxCount

def summarizing (start : Nat) : Session :=
  ⟨.summary (some ⟨start + format.head.length, .bits15⟩), start, none, 0⟩

def accepting (start : Nat) (summary : Option Bytes) (count : Nat) : Session :=
  ⟨.entries, start, some (start + (format.header summary).length), count⟩

def opened (session : Session) (start : Nat) (label : ρ) : Session :=
  let slot := payloadSlot? (format.carries label) (start + (format.labelForm label).length)
  { session with phase := .entry start slot }

/-- What a first step leaves: a container whose summary is written next, or one that accepts entries. -/
def Begins (start : Nat) (after : Session) (added : Bytes) : Prop :=
  if format.hasSummary then
    after = format.summarizing start ∧ added = format.head ++ List.replicate 2 0 ∧ format.HeadFits
  else
    after = format.accepting start none 0 ∧
      added = format.header none ++ List.replicate format.countWidth 0 ∧ format.HeaderFits none

/-- What the steps of a writer do, so that its output can be followed from step to step. -/
class Lawful (format : Format ρ σ) : Prop where
  start_commits : ∀ {session : Session},
    Drafting.Commits session format.start fun start _ after added =>
      session.phase = .idle ∧ (session = {} → format.Begins start after added)
  closeSummary_refuses : ∀ how {session : Session},
    (∀ slot, session.phase ≠ .summary (some slot)) → ∀ output, ∃ error,
      format.closeSummary how ⟨session, output⟩ = .error error ⟨session, output⟩
  /-- Where the summary cannot be closed, no step succeeds any more. -/
  closeSummary_cases : ∀ how {before written : Bytes} {output : Output},
    format.hasSummary → format.HeadFits →
    output.toList = before ++ (format.head ++ List.replicate 2 0 ++ written) →
      let summary := if format.commits how then some written else none
      (∃ error after, format.closeSummary how ⟨format.summarizing before.length, output⟩ =
          .error error after ∧ after.session.phase = .summary none) ∨
        ∃ after, format.closeSummary how ⟨format.summarizing before.length, output⟩ =
            .ok () ⟨format.accepting before.length summary 0, after⟩ ∧
          after.toList = before ++ (format.header summary ++ List.replicate format.countWidth 0) ∧
          format.HeaderFits summary
  add_commits : ∀ {session : Session} (label : ρ) (payload : Bytes),
    Drafting.Commits session (format.add label payload) fun _ _ after added =>
      format.Accepts session ∧ after = { session with count := session.count + 1 } ∧
        added = format.itemForm (format.item label payload) ∧
        format.ItemFits (format.item label payload)
  openEntry_commits : ∀ {session : Session} (label : ρ),
    Drafting.Commits session (format.openEntry label) fun start _ after added =>
      format.Accepts session ∧ after = format.opened session start label ∧
        added = format.labelForm label ++ payloadRoom (format.carries label) ∧
        format.LabelFits label

end Format

end MarketWire.Labelled
