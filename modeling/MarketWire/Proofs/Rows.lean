import MarketWire.Publication.Column
import MarketWire.Proofs.Arrays
import MarketWire.Proofs.LocalSets
import MarketWire.Proofs.RecordSteps

/-! Rows, written and read back.

A row is the contents of its cells one after another, each in the layout of its column. A reader that
knows the definition of the columns gives each cell back as an element under the name of its column.
-/

set_option autoImplicit false

namespace MarketWire

namespace Cell

def content : Cell → Primitive
  | .value own => own
  | .items plan list => .bytes .array (ItemArray.form plan list)

def IsUniform : Cell → Prop
  | .value _ => True
  | .items plan _ => plan.IsUniform

def Fits (cell : Cell) (type : DataType) : Prop :=
  cell.content.FitsSet type ∧ match cell with
    | .value _ => True
    | .items plan list => ItemArray.Fits plan list

def Suits (cell : Cell) (type : DataType) : Prop :=
  cell.content.isPlain ∧ cell.content.dataType = type.base ∧ match cell with
    | .value _ => True
    | .items plan list => plan.IsUniform ∧ ItemArray.Suits plan list

theorem Suits.uniform {cell : Cell} {type : DataType} (suits : cell.Suits type) :
    cell.IsUniform := by
  cases cell with
  | value own => trivial
  | items plan list => exact suits.2.2.1

end Cell

namespace Column

variable {α : Type}

theorem cellValue_eq_ok {room : Nat} {cell : Cell} (uniform : cell.IsUniform) {value : Primitive}
    (h : cellValue room cell = .ok value) :
    value = cell.content ∧ ∀ type, value.FitsSet type → cell.Fits type := by
  cases cell with
  | value own =>
    cases h
    exact ⟨rfl, fun _ fits => ⟨fits, trivial⟩⟩
  | items plan list =>
    unfold cellValue at h
    dsimp only at h
    cases written : Write.toBytes room (ItemArray.encode plan list) with
    | error error =>
      rw [written] at h
      cases h
    | ok bytes =>
      rw [written] at h
      cases h
      obtain ⟨rfl, fitsItems⟩ := (ItemArray.encode_extends uniform list).of_toBytes written
      exact ⟨rfl, fun _ fits => ⟨fits, fitsItems⟩⟩

def cellForm (value : α) (column : Column α) : Bytes :=
  (column.cell value).content.setForm column.type

def rowFlags : UInt8 := 0x08

def rowForm (columns : List (Column α)) (value : α) : Bytes :=
  rowFlags :: columns.flatMap (cellForm value)

section
variable {columns : List (Column α)}

theorem activeSet_plan (filled : columns ≠ []) :
    (plan columns).activeSet = some (definition columns) := by
  have entries : (definition columns).entries.isEmpty = false := by
    simpa [definition] using filled
  unfold plan Record.Plan.activeSet
  rw [Option.filter_some, entries]
  rfl

theorem flags_plan (filled : columns ≠ []) : (plan columns).flags = rowFlags := by
  unfold Record.Plan.flags
  rw [activeSet_plan filled]
  change (0 ||| (0x08 ||| if (0 : UInt16) ≠ 0 then Record.setIdFlag else 0) ||| 0 : UInt8) = rowFlags
  decide

theorem head_plan (filled : columns ≠ []) : (plan columns).head = [rowFlags] := by
  have noId : (plan columns).idForm = [] := by
    unfold Record.Plan.idForm
    rw [activeSet_plan filled]
    rfl
  unfold Record.Plan.head
  rw [flags_plan filled, noId]
  rfl

theorem start_extends (filled : columns ≠ []) :
    Drafting.Extends {} (ElementList.start (plan columns)) fun start _ after added =>
      after = ⟨.setData 0 none, start, none, 0⟩ ∧ added = [rowFlags] := by
  apply Record.start_commits.extends.mono
  rintro start _ _ _ ⟨-, rfl, rfl, -⟩
  have slot : (plan columns).slot? start = none := by
    unfold Record.Plan.slot? Record.Plan.framesValues
    simp [plan]
  unfold Record.Plan.started
  rw [activeSet_plan filled, slot, head_plan filled]
  exact ⟨rfl, rfl⟩

/-- How far the writing of a row has got behind so many cells. -/
def written (columns : List (Column α)) (start count : Nat) : Session :=
  ⟨if count = columns.length then .entries else .setData count none, start, none, 0⟩

theorem written_length {start : Nat} :
    written columns start columns.length = ⟨.entries, start, none, 0⟩ := by
  rw [written, if_pos rfl]

theorem written_of_ne {start count : Nat} (more : count ≠ columns.length) :
    written columns start count = ⟨.setData count none, start, none, 0⟩ := by
  rw [written, if_neg more]

theorem addSetEntry_extends (filled : columns ≠ []) {start count : Nat} {column : Column α}
    (next : columns[count]? = some column) (value : Primitive) :
    Drafting.Extends ⟨.setData count none, start, none, 0⟩
      (Record.addSetEntry (plan columns) count none column.name value) fun _ _ after added =>
        after = written columns start (count + 1) ∧ added = value.setForm column.type ∧
          value.FitsSet column.type := by
  have expected : (((plan columns).activeSet.map (·.entries)).getD #[])[count]? =
      some ⟨column.name, column.type⟩ := by
    rw [activeSet_plan filled]
    simp [definition, next]
  have size : (((plan columns).activeSet.map (·.entries)).getD #[]).size = columns.length := by
    rw [activeSet_plan filled]
    simp [definition]
  unfold Record.addSetEntry
  simp only [expected, size]
  rw [if_neg (by simp)]
  refine Drafting.Extends.ite (fun _ => ?_) fun _ => ?_
  · exact Drafting.Extends.throw_bind _
  -- Rows have no standard entries, for which room would be kept behind the last cell.
  have noStandard : (plan columns).standard = false := rfl
  simp only [noStandard, Bool.and_false, Bool.false_eq_true, if_false]
  have cell : Write.Extends (do value.encodeSet column.type; pure ()) fun _ _ added =>
      added = value.setForm column.type ∧ value.FitsSet column.type := by
    apply (Write.Extends.bind (value.encodeSet_extends column.type) fun _ =>
      Write.Extends.pure ()).mono
    rintro _ _ _ ⟨_, _, _, ⟨rfl, fits⟩, ⟨-, rfl⟩, rfl⟩
    exact ⟨List.append_nil _, fits⟩
  -- Behind the last cell the row accepts no more set data.
  have last : Drafting.Extends ⟨.setData (count + 1) none, start, none, 0⟩
      (if (count + 1 == columns.length) = true then Drafting.enter .entries else pure ())
      fun _ _ after added => after = written columns start (count + 1) ∧ added = [] := by
    by_cases isLast : count + 1 = columns.length
    · rw [if_pos (by simpa using isLast), isLast, written_length]
      exact Drafting.enter_extends .entries
    · rw [if_neg (by simpa using isLast), written_of_ne isLast]
      exact (Drafting.Extends.pure ()).mono fun _ _ _ _ told => told.2
  apply (Drafting.Extends.write cell.atomic).follow
  rintro _ _ _ _ ⟨rfl, rfl, fits⟩
  apply (Drafting.enter_extends _).follow
  rintro _ _ _ _ ⟨rfl, rfl⟩
  apply last.mono
  rintro _ _ _ _ ⟨rfl, rfl⟩ - -
  exact ⟨rfl, List.append_nil _, fits⟩

theorem addCell_extends (filled : columns ≠ []) {start count : Nat} {column : Column α}
    (next : columns[count]? = some column) {value : α} (uniform : (column.cell value).IsUniform) :
    Drafting.Extends ⟨.setData count none, start, none, 0⟩ (addCell (plan columns) value column)
      fun _ _ after added => after = written columns start (count + 1) ∧
        added = cellForm value column ∧ (column.cell value).Fits column.type := by
  apply (Drafting.Extends.write Write.room_emits).follow
  rintro _ room _ _ ⟨rfl, rfl⟩
  cases found : cellValue room (column.cell value) with
  | error error => exact Drafting.Extends.throw error
  | ok content =>
    obtain ⟨rfl, fits⟩ := cellValue_eq_ok uniform found
    apply Drafting.session_tests.then_extends
    rintro _ rfl
    apply (addSetEntry_extends filled next _).mono
    rintro _ _ _ _ ⟨rfl, rfl, fit⟩ -
    exact ⟨rfl, rfl, fits _ fit⟩

theorem cells_extend (filled : columns ≠ []) {start : Nat} {value : α}
    (uniform : ∀ column ∈ columns, (column.cell value).IsUniform) :
    Drafting.Extends ⟨.setData 0 none, start, none, 0⟩ (columns.forM (addCell (plan columns) value))
      fun _ _ after added => after = ⟨.entries, start, none, 0⟩ ∧
        added = columns.flatMap (cellForm value) ∧
        ∀ column ∈ columns, (column.cell value).Fits column.type := by
  have positive : 0 < columns.length := List.length_pos_iff.mpr filled
  refine (Drafting.Extends.forM columns (fun before after added =>
    after = written columns start before.length ∧ added = before.flatMap (cellForm value) ∧
      ∀ column ∈ before, (column.cell value).Fits column.type) ?_ ?_).mono ?_
  · exact ⟨(written_of_ne (Nat.ne_of_lt positive)).symm, rfl, by simp⟩
  · rintro before column after _ _ split ⟨rfl, rfl, fits⟩
    have next : columns[before.length]? = some column := by simp [← split]
    have more : before.length ≠ columns.length := by
      rw [← split, List.length_append, List.length_cons]
      omega
    have member : column ∈ columns := by simp [← split]
    rw [written_of_ne more]
    apply (addCell_extends filled next (uniform column member)).mono
    rintro _ _ _ _ ⟨rfl, rfl, fit⟩
    refine ⟨by simp, by simp, ?_⟩
    exact List.forall_mem_append.mpr ⟨fits, List.forall_mem_singleton.mpr fit⟩
  · rintro _ _ _ _ ⟨rfl, rfl, fits⟩
    exact ⟨written_length, rfl, fits⟩

theorem body_extends (filled : columns ≠ []) {value : α}
    (uniform : ∀ column ∈ columns, (column.cell value).IsUniform) :
    Drafting.Extends {} (do
        ElementList.start (plan columns)
        columns.forM (addCell (plan columns) value)) fun start _ session added =>
      session.phase = .entries ∧ ∃ final, session.Seals 2 start added final ∧
        final = rowForm columns value ∧ ∀ column ∈ columns, (column.cell value).Fits column.type := by
  refine (start_extends filled).follow ?_
  rintro start _ _ _ ⟨rfl, rfl⟩
  apply (cells_extend filled uniform).mono
  rintro _ _ _ _ ⟨rfl, rfl, fits⟩ -
  exact ⟨rfl, _, rfl, rfl, fits⟩

theorem writeRow_extends (filled : columns ≠ []) {value : α}
    (uniform : ∀ column ∈ columns, (column.cell value).IsUniform) :
    Write.Extends (writeRow columns value) fun _ _ added => added = rowForm columns value ∧
      ∀ column ∈ columns, (column.cell value).Fits column.type :=
  Drafting.whole_extends (Drafting.finish_fills _ 2) (body_extends filled uniform)

end

/-! ## Reading back -/

def element (value : α) (column : Column α) : ElementList.Entry :=
  ⟨Bytes.ofString column.name, column.type.base, .primitive (column.cell value).content.reread,
    cellForm value column⟩

theorem readContent_rowFlags (context : Context) (bytes : Bytes) :
    Record.readContent String context (rowFlags :: bytes) =
      .ok ⟨none, some 0, 0, Record.setBlock String context 0 bytes⟩ [] := by
  simp [Record.readContent, Entries.read]
  rfl

section
variable {columns : List (Column α)} {context : Context} {value : α}

theorem setStep_cellForm {column : Column α} (suits : (column.cell value).Suits column.type)
    (fits : (column.cell value).Fits column.type) (rest : Bytes) :
    Record.setStep ⟨column.name, column.type⟩ (cellForm value column ++ rest) =
      (element value column, some rest) :=
  Record.setStep_ok (Primitive.readSet_setForm suits.1 suits.2.1 fits.1 rest)

theorem decode_rowForm (knows : context.elementSet? 0 = some (definition columns))
    (suits : ∀ column ∈ columns, (column.cell value).Suits column.type)
    (fits : ∀ column ∈ columns, (column.cell value).Fits column.type) :
    ElementList.decode context (rowForm columns value) =
      .ok ⟨none, some 0, 0, columns.map (element value)⟩ := by
  have cells : Entries.readEach Record.setStep (definition columns).entries.toList
      (columns.flatMap (cellForm value) ++ []) = columns.map (element value) :=
    Entries.readEach_flatMap (fun column member rest =>
      setStep_cellForm (suits column member) (fits column member) rest) []
  rw [List.append_nil] at cells
  have block : Record.setBlock String context 0 (columns.flatMap (cellForm value)) =
      columns.map (element value) := by
    have found : RecordFormat.findSet context 0 = some (definition columns) := knows
    unfold Record.setBlock
    rw [found]
    exact cells
  rw [← block]
  exact Read.all_ok (readContent_rowFlags context _)

end

end Column

end MarketWire
