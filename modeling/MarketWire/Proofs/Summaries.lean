import MarketWire.Publication.Summary
import MarketWire.Proofs.Elements
import MarketWire.Proofs.RecordSteps

/-! Summaries, written and read back.

A summary is an element list whose elements all carry their names and types. It comes back element by
element, in a context that knows nothing.
-/

set_option autoImplicit false

namespace MarketWire.Summary

def flags : UInt8 := 0x02

def elementForm (element : String × Primitive) : Bytes :=
  LengthForm.bits15.frame (Bytes.ofString element.1) ++ [element.2.dataType.code]
    ++ LengthForm.bits16.frame element.2.payload

def form (elements : List (String × Primitive)) : Bytes :=
  [flags] ++ Bytes.ofNat 2 elements.length ++ elements.flatMap elementForm

def ElementFits (element : String × Primitive) : Prop :=
  (Bytes.ofString element.1).length ≤ Varying.max15 ∧ element.2.payload.length ≤ 0xFFFF

def Fits (elements : List (String × Primitive)) : Prop :=
  elements.length ≤ Record.maxCount ∧ ∀ element ∈ elements, ElementFits element

theorem start_extends :
    Drafting.Extends {} (ElementList.start {}) fun start _ after added =>
      after = ⟨.entries, start, some (start + 1), 0⟩ ∧ added = [flags] ++ List.replicate 2 0 := by
  apply Record.start_commits.extends.mono
  rintro _ _ _ _ ⟨-, rfl, rfl, -⟩
  exact ⟨rfl, rfl⟩

theorem add_commits (element : String × Primitive) {session : Session}
    (phase : session.phase = .entries) :
    Drafting.Commits session (ElementList.add {} element.1 element.2) fun _ _ after added =>
      after = { session with count := session.count + 1 } ∧ session.count ≠ Record.maxCount ∧
        added = elementForm element ∧ ElementFits element := by
  have behind (written : Nat) (slot : Option LengthSlot) : session.phase ≠ .setData written slot := by
    rw [phase]
    exact Phase.noConfusion
  apply (Record.add_commits behind).mono
  rintro _ _ _ _ ⟨accepts, same, form, name, payload⟩
  exact ⟨same, accepts.more, form, name, payload⟩

theorem elements_extend (elements : List (String × Primitive)) {start : Nat} {countAt : Option Nat} :
    Drafting.Extends ⟨.entries, start, countAt, 0⟩
      (elements.forM fun (name, value) => ElementList.add {} name value) fun _ _ last added =>
        last = ⟨.entries, start, countAt, elements.length⟩ ∧ added = elements.flatMap elementForm ∧
          Fits elements := by
  refine Drafting.Extends.forM elements (fun elements last added =>
    last = ⟨.entries, start, countAt, elements.length⟩ ∧ added = elements.flatMap elementForm ∧
      Fits elements) ?_ ?_
  · exact ⟨rfl, rfl, Nat.zero_le _, by simp⟩
  rintro before element _ _ _ - ⟨rfl, rfl, count, fits⟩
  apply (add_commits element rfl).extends.mono
  rintro _ _ _ _ ⟨rfl, more, rfl, fit⟩
  have room : before.length ≠ Record.maxCount := more
  refine ⟨by simp, by simp, by simp; omega, ?_⟩
  exact List.forall_mem_append.mpr ⟨fits, List.forall_mem_singleton.mpr fit⟩

theorem body_extends (elements : List (String × Primitive)) :
    Drafting.Extends {} (do
        ElementList.start {}
        elements.forM fun (name, value) => ElementList.add {} name value) fun start _ session added =>
      session.phase = .entries ∧ ∃ final, session.Seals 2 start added final ∧
        final = form elements ∧ Fits elements := by
  refine start_extends.follow ?_
  rintro start _ _ _ ⟨rfl, rfl⟩
  apply (elements_extend elements).mono
  rintro _ _ _ _ ⟨rfl, rfl, fits⟩ -
  exact ⟨rfl, _, ⟨[flags], _, rfl, rfl, rfl⟩, rfl, fits⟩

theorem write_extends (elements : List (String × Primitive)) :
    Write.Extends (write elements) fun _ _ added => added = form elements ∧ Fits elements :=
  Drafting.whole_extends (Drafting.finish_fills _ 2) (body_extends elements)

/-! ## Reading back -/

def entry (element : String × Primitive) : ElementList.Entry :=
  ⟨Bytes.ofString element.1, element.2.dataType, .primitive element.2.reread, element.2.payload⟩

theorem dataType_of_isPlain {value : Primitive} (plain : value.isPlain) :
    value.dataType.base = value.dataType ∧ value.dataType.isContainer = false := by
  cases value with
  | bytes type content => cases type <;> exact ⟨rfl, rfl⟩
  | int n => exact ⟨rfl, rfl⟩
  | uint n => exact ⟨rfl, rfl⟩
  | enum n => exact ⟨rfl, rfl⟩
  | _ => cases plain

def item (element : String × Primitive) : Record.Item String DataType := .ofValue element.1 element.2

section
variable {element : String × Primitive} (plain : element.2.isPlain)
include plain

theorem item_hasPayload : (item element).hasPayload := by
  obtain ⟨-, noContainer⟩ := dataType_of_isPlain plain
  have other : element.2.dataType ≠ .noData := by
    intro same
    rw [same] at noContainer
    cases noContainer
  change Record.hasPayload (some element.2.dataType) = true
  simp [Record.hasPayload, other]

theorem item_form : (item element).form = elementForm element :=
  Record.Item.form_of_hasPayload (item_hasPayload plain)

theorem item_fits (fits : ElementFits element) : (item element).Fits :=
  .of_hasPayload (item_hasPayload plain) fits.1 fits.2

theorem item_entry : (item element).entry {} = entry element := by
  obtain ⟨own, noContainer⟩ := dataType_of_isPlain plain
  have decoded : EntryValue.decode element.2.dataType element.2.payload =
      .primitive element.2.reread := by
    unfold EntryValue.decode
    rw [noContainer, Primitive.decode_payload plain own.symm]
    rfl
  change Record.standardEntry String {} _ (some element.2.dataType.code) element.2.payload = _
  unfold Record.standardEntry
  simp only [DataType.ofCode?_code, decoded]
  rfl

end

theorem form_eq {elements : List (String × Primitive)}
    (plain : ∀ element ∈ elements, element.2.isPlain) :
    form elements = Record.Plan.form ({} : ElementList.Plan) [] (elements.map item) := by
  have forms : (elements.map item).flatMap (·.form) = elements.flatMap elementForm := by
    rw [List.flatMap_def, List.flatMap_def, List.map_map]
    exact congrArg List.flatten (List.map_congr_left fun element member => item_form (plain element member))
  unfold Record.Plan.form
  rw [forms, List.length_map]
  rfl

theorem record_fits {elements : List (String × Primitive)}
    (plain : ∀ element ∈ elements, element.2.isPlain) (fits : Fits elements) :
    Record.Plan.Fits ({} : ElementList.Plan) [] (elements.map item) where
  head := ⟨by simp, by simp, by simp [Record.Plan.activeSet]⟩
  frame := by simp [Record.Plan.framesValues, Record.Plan.activeSet]
  standard := by simp
  count := by simpa using fits.1
  each := List.forall_mem_map.mpr fun element member =>
    item_fits (plain element member) (fits.2 element member)

theorem decode_form {elements : List (String × Primitive)}
    (plain : ∀ element ∈ elements, element.2.isPlain) (fits : Fits elements) :
    ElementList.decode {} (form elements) = .ok ⟨none, none, elements.length, elements.map entry⟩ := by
  have entries : (elements.map item).map (·.entry {}) = elements.map entry := by
    rw [List.map_map]
    exact List.map_congr_left fun element member => item_entry (plain element member)
  have decoded := @Record.decode_form _ _ _ _ _ _ _ _ _ _ (record_fits plain fits) {} (by rintro _ ⟨⟩)
  rw [form_eq plain, ← entries]
  rw [List.length_map] at decoded
  exact decoded

theorem readable_form {elements : List (String × Primitive)}
    (plain : ∀ element ∈ elements, element.2.isPlain) (fits : Fits elements) :
    Element.readable {} (form elements) = .ok (elements.map entry) := by
  unfold Element.readable
  rw [decode_form plain fits]
  refine congrArg Except.ok (List.filter_eq_self.mpr fun element member => ?_)
  obtain ⟨own, -, rfl⟩ := List.mem_map.mp member
  rfl

end MarketWire.Summary
