import MarketWire.Proofs.Rooms

/-! How much room rows and summaries need.

Each element of a row or of a summary needs room for the longest form of its length. Behind the last
element it gives back what its length does not take.
-/

set_option autoImplicit false

namespace MarketWire

/-- What is given back of the room for a length when the length is known. -/
def LengthForm.spare (form : LengthForm) (length : Nat) : Nat :=
  form.reserved - (form.spell length).length

theorem LengthForm.length_spell_add_spare (form : LengthForm) (length : Nat) :
    (form.spell length).length + form.spare length = form.reserved :=
  Nat.add_sub_cancel' (form.length_spell_le length)

/-! ## Rows -/

namespace Column

variable {α : Type} {columns : List (Column α)}

def IsSingle (column : Column α) : Prop := ∀ shown, ∃ value, column.cell shown = .value value

def cellNeed (shown : α) (column : Column α) : Nat := (column.cell shown).content.setNeed column.type

def rowNeed (columns : List (Column α)) (shown : α) : Nat :=
  1 + needInTurn (cellNeed shown) (cellForm shown) columns

section
variable {column : Column α} {shown : α} {start count : Nat}

theorem addCell_needs (filled : columns ≠ []) (next : columns[count]? = some column)
    (single : column.IsSingle) (suits : (column.cell shown).Suits column.type)
    (fits : (column.cell shown).Fits column.type) :
    Drafting.Needs ⟨.setData count none, start, none, 0⟩ (addCell (plan columns) shown column)
      (cellNeed shown column) := by
  intro output
  obtain ⟨value, own⟩ := single shown
  have expected : (((plan columns).activeSet.map (·.entries)).getD #[])[count]? =
      some ⟨column.name, column.type⟩ := by
    rw [activeSet_plan filled]
    simp [definition, next]
  unfold cellNeed
  rw [own] at suits fits ⊢
  have typed : value.fitsSetType column.type := Primitive.fitsSetType_of_native suits.1 suits.2.1
  have cell : Write.Needs (do value.encodeSet column.type; pure ()) (value.setNeed column.type) :=
    fun output => (Primitive.encodeSet_needs suits.1 suits.2.1 fits.1 output).then_ok
      fun _ middle _ => ⟨(), middle, rfl⟩
  refine Program.Needs.of_next (Drafting.write_ok rfl) rfl ?_
  rw [own]
  have current : Drafting.session ⟨⟨.setData count none, start, none, 0⟩, output⟩ =
      .ok ⟨.setData count none, start, none, 0⟩ ⟨⟨.setData count none, start, none, 0⟩, output⟩ := rfl
  refine Program.Needs.of_next current rfl ?_
  unfold Record.addSetEntry
  have noStandard : (plan columns).standard = false := rfl
  simp only [expected, noStandard, Bool.and_false, Bool.false_eq_true, if_false]
  rw [if_neg (by simp), if_neg (by simpa using typed)]
  -- What follows the cell only notes how far the row has got.
  refine (Drafting.write_needs (Write.atomic_needs cell) _ output).then_ok fun _ middle _ => ?_
  split <;> exact ⟨(), _, rfl⟩

theorem cells_need (filled : columns ≠ []) (single : ∀ column ∈ columns, column.IsSingle)
    (suits : ∀ column ∈ columns, (column.cell shown).Suits column.type)
    (fits : ∀ column ∈ columns, (column.cell shown).Fits column.type) {before after : List (Column α)}
    (split : before ++ after = columns) :
    Drafting.Needs (written columns start before.length) (after.forM (addCell (plan columns) shown))
      (needInTurn (cellNeed shown) (cellForm shown) after) := by
  induction after generalizing before with
  | nil => exact fun _ => Program.Needs.pure ()
  | cons column rest ih =>
    have next : columns[before.length]? = some column := by simp [← split]
    have more : before.length ≠ columns.length := by
      rw [← split, List.length_append, List.length_cons]
      omega
    have member : column ∈ columns := by simp [← split]
    have rest := @ih (before ++ [column]) (by simpa using split)
    rw [written_of_ne more, needInTurn]
    refine (addCell_needs filled next (single column member) (suits column member)
      (fits column member)).bind (addCell_extends filled next (suits column member).uniform) ?_
    rintro _ _ _ _ ⟨rfl, rfl, -⟩
    rw [List.length_append, List.length_singleton] at rest
    exact ⟨rfl, rest⟩

theorem start_needs (filled : columns ≠ []) :
    Drafting.Needs {} (ElementList.start (plan columns)) 1 := by
  have header : Write.Needs (plan columns).writeHeader 1 := by
    unfold Record.Plan.writeHeader
    rw [activeSet_plan filled]
    exact fun output => ((Write.bytes_prints [(plan columns).flags]).needs output).then_ok
      fun _ middle _ => ⟨none, middle, rfl⟩
  intro output
  refine Program.Needs.of_next (Drafting.requireIdle_ok _ output) rfl
    (Program.Needs.of_next (Drafting.write_ok rfl) rfl ?_)
  refine (Drafting.write_needs (Write.atomic_needs header) _ output).then_ok fun _ middle _ => ?_
  exact ⟨(), _, rfl⟩

theorem writeRow_needs (filled : columns ≠ []) (single : ∀ column ∈ columns, column.IsSingle)
    (suits : ∀ column ∈ columns, (column.cell shown).Suits column.type)
    (fits : ∀ column ∈ columns, (column.cell shown).Fits column.type) :
    (writeRow columns shown).Needs (rowNeed columns shown) := by
  have uniform : ∀ column ∈ columns, (column.cell shown).IsUniform :=
    fun column member => (suits column member).uniform
  refine Drafting.whole_needs (Drafting.finish_fills _ 2) (body_extends filled uniform) ?_
  rw [rowNeed, ← Nat.max_eq_right (Nat.le_add_right 1 _)]
  refine (start_needs filled).bind (start_extends filled) ?_
  rintro start _ _ _ ⟨rfl, rfl⟩
  have nonzero : columns.length ≠ 0 := by simpa using filled
  have cells := @cells_need _ _ _ start filled single suits fits [] columns rfl
  rw [List.length_nil, written_of_ne nonzero.symm] at cells
  exact ⟨rfl, cells⟩

end

end Column

/-! ## Summaries -/

namespace Summary

variable {element : String × Primitive} {session : Session}

def elementNeed (element : String × Primitive) : Nat :=
  (LengthForm.bits15.frame (Bytes.ofString element.1)).length + 1
    + (LengthForm.bits16.reserved + element.2.payload.length)

theorem add_needs (plain : element.2.isPlain) (fits : ElementFits element)
    (phase : session.phase = .entries) (more : session.count ≠ Record.maxCount) :
    Drafting.Needs session (ElementList.add {} element.1 element.2) (elementNeed element) := by
  intro output
  have encoded := Primitive.encode_prints plain
  have payload := @LengthSlot.around_needs .bits16 _ _ _ fits.2 encoded.emits encoded.needs
  have label : Write.Prints (Record.writeLabel element.1 (some element.2.dataType))
      (LengthForm.bits15.frame (Bytes.ofString element.1) ++ [element.2.dataType.code]) :=
    (Write.framed_prints fits.1).bind fun _ => Write.bytes_prints _
  have entry := label.then_needs fun _ => payload
  rw [List.length_append, List.length_singleton] at entry
  have accepted : Record.requireStandard ({} : ElementList.Plan) ⟨session, output⟩ =
      .ok () ⟨session, output⟩ := by
    unfold Record.requireStandard
    rw [Program.bind_ok (Drafting.requireEntries_ok _ phase output)]
    exact Drafting.requireCount_ok more output
  have current : Drafting.session ⟨session, output⟩ = .ok session ⟨session, output⟩ := rfl
  refine Program.Needs.of_next current rfl ?_
  rw [phase]
  refine Program.Needs.of_next accepted rfl ?_
  exact (Drafting.write_needs (Write.atomic_needs entry) _ output).then_ok
    fun _ middle _ => ⟨(), _, rfl⟩

theorem start_needs : Drafting.Needs {} (ElementList.start {}) 3 := by
  intro output
  have header : Write.Needs (Record.Plan.writeHeader ({} : ElementList.Plan)) 3 :=
    (Write.bytes_prints [flags]).then_needs fun _ output =>
      (Write.reserve_needs 2 output).then_ok fun _ middle _ => ⟨none, middle, rfl⟩
  refine Program.Needs.of_next (Drafting.requireIdle_ok _ output) rfl
    (Program.Needs.of_next (Drafting.write_ok rfl) rfl ?_)
  exact (Drafting.write_needs (Write.atomic_needs header) _ output).then_ok
    fun _ middle _ => ⟨(), _, rfl⟩

theorem elements_need {elements : List (String × Primitive)} {start count : Nat} {countAt : Option Nat}
    (plain : ∀ element ∈ elements, element.2.isPlain) (fits : ∀ element ∈ elements, ElementFits element)
    (few : count + elements.length ≤ Record.maxCount) :
    Drafting.Needs ⟨.entries, start, countAt, count⟩
      (elements.forM fun (name, value) => ElementList.add {} name value)
      (needInTurn elementNeed elementForm elements) := by
  induction elements generalizing count with
  | nil => exact fun _ => Program.Needs.pure ()
  | cons element rest ih =>
    rw [List.length_cons] at few
    have more : count ≠ Record.maxCount := by omega
    have following := @ih (count + 1) (fun other member => plain other (List.mem_cons_of_mem _ member))
      (fun other member => fits other (List.mem_cons_of_mem _ member)) (by omega)
    refine (add_needs (plain element List.mem_cons_self) (fits element List.mem_cons_self) rfl more).bind
      (add_commits element rfl).extends ?_
    rintro _ _ _ _ ⟨rfl, -, rfl, -⟩
    exact ⟨rfl, following⟩

theorem write_needs {elements : List (String × Primitive)}
    (plain : ∀ element ∈ elements, element.2.isPlain) (fits : Fits elements) :
    ∃ need, (write elements).Needs need ∧ need ≤ (form elements).length + 2 := by
  have body : Drafting.Needs {} (do
        ElementList.start {}
        elements.forM fun (name, value) => ElementList.add {} name value)
      (max 3 (3 + needInTurn elementNeed elementForm elements)) := by
    refine start_needs.bind start_extends ?_
    rintro start _ _ _ ⟨rfl, rfl⟩
    exact ⟨rfl, elements_need plain fits.2 (by simpa using fits.1)⟩
  refine ⟨_, Drafting.whole_needs (Drafting.finish_fills _ 2) (body_extends elements) body, ?_⟩
  have each : ∀ element ∈ elements, elementNeed element ≤ (elementForm element).length + 2 := by
    intro element _
    have positive := LengthForm.length_spell_pos .bits16 element.2.payload.length
    simp only [elementNeed, elementForm, LengthForm.frame, List.length_append, List.length_singleton]
    change _ + _ + (3 + _) ≤ _
    omega
  have all := needInTurn_le each
  simp only [form, List.length_append, List.length_singleton, Bytes.length_ofNat]
  omega

end Summary

end MarketWire
