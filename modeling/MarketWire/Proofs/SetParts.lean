import MarketWire.Publication
import MarketWire.Proofs.Receipts

/-! Global set definitions, sent in parts and taken in again.

A row tells how many entries a definition has, their keys and their types; the id stands in front of the
row. The keys come back whatever they are, so this is proved once for both kinds of definitions.
-/

set_option autoImplicit false

namespace MarketWire

class LawfulPublishedKey (κ : Type) [key : PublishedKey κ] where
  plan : ItemArray.Plan
  item : κ → Primitive
  cell_eq : ∀ keys, key.cell keys = .items plan (keys.map item)
  uniform : plan.IsUniform
  plain : ∀ own, (item own).isPlain ∧ (item own).dataType = plan.itemType.base
  ofItem?_item : ∀ own, key.ofItem? (item own).reread = some own
  column_ne : key.column ≠ "NUMENTRIES" ∧ key.column ≠ "TYPES"

instance : LawfulPublishedKey Int16 where
  plan := ⟨.int, 2⟩
  item fid := .int fid.toInt64
  cell_eq _ := rfl
  uniform := by decide
  plain _ := ⟨rfl, rfl⟩
  ofItem?_item fid := by
    change (Element.signed? 16 (.int fid.toInt64)).map Int16.ofInt = some fid
    rw [Element.signed?_int16, Option.map_some, Int16.ofInt_toInt]
  column_ne := by decide

instance : LawfulPublishedKey String where
  plan := ⟨.buffer, 0⟩
  item name := .bytes .buffer (Bytes.ofString name)
  cell_eq _ := rfl
  uniform := by decide
  plain _ := ⟨rfl, rfl⟩
  ofItem?_item name := by
    change (Element.content? (Primitive.bytes .buffer (Bytes.ofString name)).reread).map
      Element.textOf = some name
    rw [Element.content?_reread, Option.map_some, Element.textOf_ofString]
  column_ne := by decide

variable {κ : Type}

namespace SetDefinition

section
variable (definition : SetDefinition κ)

theorem types_suit : (Cell.items ⟨.uint, 1⟩ (definition.entries.toList.map fun entry =>
    .uint entry.type.code.toUInt64)).Suits .array :=
  ⟨rfl, rfl, by decide, List.forall_mem_map.mpr fun _ _ => ⟨rfl, rfl⟩⟩

variable [key : PublishedKey κ]

theorem columns_declarable : ∀ column ∈ columns κ, column.type.setLayout?.isSome := by
  intro column member
  simp only [columns, List.mem_cons, List.not_mem_nil, or_false] at member
  rcases member with rfl | rfl | rfl <;> rfl

namespace Received

variable (received : Received κ)

theorem add_count (few : definition.size < 2 ^ 63) :
    received.add (Column.element definition ⟨"NUMENTRIES", .int, fun definition =>
        .value (.int (.ofNat definition.size))⟩) =
      .ok { received with count := some definition.size } := by
  -- Sizes travel as signed integers and are read as unsigned ones.
  have small : definition.size < 2 ^ 64 := Nat.lt_trans few (by decide)
  have read : Element.unsigned 64 (Column.element definition ⟨"NUMENTRIES", .int, fun definition =>
      .value (.int (.ofNat definition.size))⟩) = .ok definition.size :=
    Element.unsigned_eq_ok rfl (Element.unsigned?_eq_some few small rfl)
  unfold add
  rw [Element.name_element, if_pos rfl, read]
  rfl

theorem type_code {type : DataType} (declarable : type.setLayout?.isSome) :
    Received.type type.code = .ok type := by
  unfold Received.type
  rw [DataType.ofCode?_code, Option.filter_some, if_pos declarable]

theorem add_types (declarable : definition.IsDeclarable)
    (fits : (Cell.items ⟨.uint, 1⟩ (definition.entries.toList.map fun entry =>
      .uint entry.type.code.toUInt64)).Fits .array) :
    received.add (Column.element definition ⟨"TYPES", .array, fun definition =>
        .items ⟨.uint, 1⟩ (definition.entries.toList.map fun entry =>
          .uint entry.type.code.toUInt64)⟩) =
      .ok { received with types := some (definition.entries.toList.map (·.type)) } := by
  have suits := definition.types_suit
  have read : typesOf (Column.element definition ⟨"TYPES", .array, fun definition =>
      .items ⟨.uint, 1⟩ (definition.entries.toList.map fun entry =>
        .uint entry.type.code.toUInt64)⟩) = .ok (definition.entries.toList.map (·.type)) := by
    unfold typesOf
    rw [Element.items_eq_ok rfl suits.uniform fits.2 suits.2.2.2, List.map_map]
    change List.mapM _ (definition.entries.toList.map _) = _
    rw [List.mapM_map]
    apply mapM_eq_ok
    intro entry member
    have code : Element.unsigned? 8 (.uint entry.type.code.toUInt64) = some entry.type.code.toNat :=
      Element.unsigned?_uint (by decide) entry.type.code.toNat_lt
    change (Element.demand _ (Element.unsigned? 8 (.uint entry.type.code.toUInt64)) >>= fun code =>
      Received.type (.ofNat code)) = _
    rw [code]
    change Received.type (.ofNat entry.type.code.toNat) = _
    rw [UInt8.ofNat_toNat, type_code (declarable entry member)]
  unfold add
  rw [Element.name_element, if_neg (by simp), if_pos rfl, read]
  rfl

theorem definition_ok (id : UInt16) (entries : Array (SetEntry κ)) :
    Received.definition id ⟨some entries.size, some (entries.toList.map (·.key)),
      some (entries.toList.map (·.type))⟩ = .ok ⟨id, entries⟩ := by
  have joined (list : List (SetEntry κ)) :
      (list.map (·.key)).zipWith SetEntry.mk (list.map (·.type)) = list := by
    induction list with
    | nil => rfl
    | cons entry rest ih => exact congrArg (entry :: ·) ih
  unfold Received.definition
  dsimp only
  rw [if_neg (by simp), if_neg (by simp), joined]
  rfl

end Received

end

section
variable [key : PublishedKey κ] [lawful : LawfulPublishedKey κ] (definition : SetDefinition κ)

theorem keys_suit : (key.cell (definition.entries.toList.map (·.key))).Suits .array := by
  rw [lawful.cell_eq]
  exact ⟨rfl, rfl, lawful.uniform, List.forall_mem_map.mpr fun _ _ => lawful.plain _⟩

theorem cells_suit : ∀ column ∈ columns κ, (column.cell definition).Suits column.type :=
  List.forall_mem_cons.mpr ⟨⟨rfl, rfl, trivial⟩, List.forall_mem_cons.mpr ⟨definition.keys_suit,
    List.forall_mem_cons.mpr ⟨definition.types_suit, by simp⟩⟩⟩

theorem Received.add_keys (received : Received κ)
    (fits : (key.cell (definition.entries.toList.map (·.key))).Fits .array) :
    received.add (Column.element definition ⟨key.column, .array, fun definition =>
        key.cell (definition.entries.toList.map (·.key))⟩) =
      .ok { received with keys := some (definition.entries.toList.map (·.key)) } := by
  have suits := definition.keys_suit
  have cells : (fun definition : SetDefinition κ => key.cell (definition.entries.toList.map (·.key))) =
      fun definition => .items lawful.plan ((definition.entries.toList.map (·.key)).map lawful.item) :=
    funext fun _ => lawful.cell_eq _
  rw [lawful.cell_eq] at suits fits
  rw [cells]
  have read : Element.itemsAs key.ofItem? (Column.element definition ⟨key.column, .array,
      fun definition =>
        .items lawful.plan ((definition.entries.toList.map (·.key)).map lawful.item)⟩) =
      .ok ((definition.entries.toList.map (·.key)).map (·)) :=
    Element.itemsAs_element definition key.column .array key.ofItem? suits fits lawful.ofItem?_item
  rw [List.map_id'] at read
  unfold add
  rw [Element.name_element, if_neg lawful.column_ne.1, if_neg lawful.column_ne.2, if_pos rfl, read]
  rfl

theorem decodeRow_rowForm (declarable : definition.IsDeclarable)
    (fits : ∀ column ∈ columns κ, (column.cell definition).Fits column.type) :
    decodeRow (Column.context (columns κ)) definition.id (Column.rowForm (columns κ) definition) =
      .ok definition := by
  unfold decodeRow
  rw [Element.readable_rowForm Column.context_knows definition.cells_suit fits]
  obtain ⟨-, keys, types, -⟩ : _ ∧ _ ∧ _ ∧ _ := by
    simpa only [columns, List.forall_mem_cons] using fits
  have few : definition.size < 2 ^ 63 := by
    have count := types.2.2.1
    simp only [List.length_map, Array.length_toList] at count
    exact Nat.lt_of_le_of_lt count (by decide)
  change ((Received.add {} _ >>= fun received => Received.add received _ >>=
    fun received => Received.add received _ >>= pure) >>= _) = _
  rw [Received.add_count _ _ few, Program.ok_bind, Received.add_keys _ _ keys, Program.ok_bind,
    Received.add_types _ _ declarable types]
  exact Received.definition_ok definition.id definition.entries

end

end SetDefinition

namespace GlobalSets

/-! ## Sending -/

section
variable {sets : GlobalSets κ}

theorem mem_toList {definition : SetDefinition κ} :
    definition ∈ sets.toList ↔ sets.sets[definition.id]? = some definition.entries := by
  unfold toList
  rw [List.mem_map]
  constructor
  · rintro ⟨⟨id, entries⟩, member, rfl⟩
    exact Std.ExtTreeMap.mem_toList_iff_getElem?_eq_some.mp member
  · exact fun found => ⟨(definition.id, definition.entries),
      Std.ExtTreeMap.mem_toList_iff_getElem?_eq_some.mpr found, rfl⟩

theorem toList_ascending : sets.toList.Pairwise (·.id < ·.id) :=
  List.pairwise_map.mpr (Std.ExtTreeMap.ordered_keys_toList.imp Std.compare_eq_lt.mp)

theorem cursor_lt {first second : UInt16} (before : first < second) :
    Int32.ofNat first.toNat < Int32.ofNat second.toNat := by
  have most := second.toNat_lt
  have lower := UInt16.lt_iff_toNat_lt.mp before
  rw [Int32.lt_iff_toInt_lt, Int32.toInt_ofNat_of_lt (by omega), Int32.toInt_ofNat_of_lt (by omega)]
  omega

variable [key : PublishedKey κ]

def elements (sets : GlobalSets κ) : List (String × Primitive) :=
  let version :=
    if sets.version.isEmpty then [] else [(Summary.versionName, .ascii sets.version)]
  [Summary.kindElement key.kind] ++ version ++ [Summary.idElement sets.dictionaryId]

theorem elements_plain : ∀ element ∈ sets.elements, element.2.isPlain := by
  unfold elements
  cases sets.version.isEmpty <;>
    simp [Summary.kindElement, Summary.idElement, Primitive.ascii, Primitive.isPlain]

variable (κ) in
def source : Part.Source (SetDefinition κ) :=
  .ofColumns (SetDefinition.columns κ) (·) (fun definition => .ofNat definition.id.toNat)
    (fun definition plan => Vector.openEntry plan definition.id.toUInt32 .set none)
    fun definition => [Vector.Action.set.code] ++ Varying.form30 definition.id.toUInt32.toNat

variable [lawful : LawfulPublishedKey κ] {sent : Verbosity}

theorem edition_sends (tells : sent.includes .minimal) :
    (sets.edition sent).Sends (source κ) sets.toList (Summary.form sets.elements)
      (Summary.Fits sets.elements) where
  hasRows := decide_eq_true (Verbosity.ne_info tells)
  rows := rfl
  ascending := toList_ascending.imp cursor_lt
  first definition _ := by
    change Int32.ofNat (0 : UInt16).toNat ≤ Int32.ofNat definition.id.toNat
    have least : 0 ≤ definition.id := UInt16.zero_le
    rcases UInt16.lt_or_eq_of_le least with positive | zero
    · exact Int32.le_of_lt (cursor_lt positive)
    · rw [← zero]
      exact Int32.le_refl _
  writes definition _ plan rows := by
    have hasPayload := Part.hasPayload_of_elementList rows
    exact Part.Source.ofColumns_writes (Part.opens_vector hasPayload _ rfl)
      (List.cons_ne_nil _ _) fun column member => (definition.cells_suit column member).uniform
  summarizes := Summary.write_extends _

end

/-! ## Taking in -/

/-- The definitions at a receiver, as long as the last of them have not arrived, and what the first part
has told. -/
structure SetsArrived (sets : GlobalSets κ) (isFirst : Bool) (left : List (SetDefinition κ))
    (state : GlobalSets κ) : Prop where
  suffix : left <:+ sets.toList
  get? : ∀ id : UInt16, state.sets[id]? = if id ∈ left.map (·.id) then none else sets.sets[id]?
  version : state.version = if isFirst then "" else sets.version
  dictionaryId : state.dictionaryId = if isFirst then 0 else sets.dictionaryId

section
variable {sets state : GlobalSets κ} {isFirst : Bool} {left : List (SetDefinition κ)}

theorem SetsArrived.add {definition : SetDefinition κ}
    (arrived : SetsArrived sets isFirst (definition :: left) state) :
    SetsArrived sets isFirst left (state.add definition) := by
  refine ⟨(List.suffix_cons _ _).trans arrived.suffix, fun id => ?_, arrived.version,
    arrived.dictionaryId⟩
  have member := mem_toList.mp (arrived.suffix.subset List.mem_cons_self)
  have ascending := toList_ascending.sublist arrived.suffix.sublist
  have above := (List.pairwise_cons.mp ascending).1
  have absent : definition.id ∉ left.map (·.id) := by
    intro again
    obtain ⟨other, inside, same⟩ := List.mem_map.mp again
    exact UInt16.lt_irrefl _ (same ▸ above other inside)
  exact getElem?_insert_first arrived.get? absent member id

theorem setsArrived_empty : SetsArrived sets true sets.toList empty := by
  refine ⟨List.suffix_rfl, getElem?_empty_listed fun id known => ?_, rfl, rfl⟩
  obtain ⟨entries, found⟩ := Option.isSome_iff_exists.mp known
  exact List.mem_map.mpr ⟨⟨id, entries⟩, mem_toList.mpr found, rfl⟩

theorem SetsArrived.eq (arrived : SetsArrived sets false [] state) : state = sets := by
  have same : state.sets = sets.sets := Std.ExtTreeMap.ext_getElem? arrived.get?
  have version : state.version = sets.version := arrived.version
  have dictionaryId : state.dictionaryId = sets.dictionaryId := arrived.dictionaryId
  cases state
  cases sets
  cases same
  cases version
  cases dictionaryId
  rfl

variable [key : PublishedKey κ]

theorem applySummary_ok (version : state.version = "") (unknown : state.dictionaryId = 0) :
    (sets.elements.map Summary.entry).forM applySummary state =
      .ok () { state with version := sets.version, dictionaryId := sets.dictionaryId } := by
  have kind (state : GlobalSets κ) :
      applySummary (Summary.entry (Summary.kindElement key.kind)) state = .ok () state := by
    unfold applySummary
    rw [Summary.name_entry]
    exact Summary.checkKind_ok key.kind state
  have told : applySummary (Summary.entry (Summary.versionName, .ascii sets.version)) state =
      .ok () { state with version := sets.version } := by
    unfold applySummary
    rw [Summary.name_entry]
    apply (Summary.text_bind _ _ _).trans
    change EStateM.Result.ok () { state with version := setOnce state.version sets.version } = _
    rw [version]
    rfl
  have own (state : GlobalSets κ) (unknown : state.dictionaryId = 0) :
      applySummary (Summary.entry (Summary.idElement sets.dictionaryId)) state =
        .ok () { state with dictionaryId := sets.dictionaryId } := by
    unfold applySummary
    rw [Summary.name_entry]
    apply (Summary.id_bind _ _).trans
    rw [Program.get_bind, if_pos unknown]
    rfl
  unfold elements
  -- An empty version is not sent; the receiver has none to begin with either.
  by_cases unversioned : sets.version.isEmpty
  · have same : sets.version = state.version := by
      rw [version]
      exact String.isEmpty_iff.mp unversioned
    rw [if_pos unversioned, same]
    change (applySummary _ >>= fun _ => applySummary _ >>= fun _ => pure ()) state = _
    rw [Program.bind_ok (kind _), Program.bind_ok (own _ unknown)]
    rfl
  · rw [if_neg unversioned]
    change (applySummary _ >>= fun _ => applySummary _ >>= fun _ => applySummary _ >>=
      fun _ => pure ()) state = _
    rw [Program.bind_ok (kind _), Program.bind_ok told,
      Program.bind_ok (own { state with version := sets.version } unknown)]
    rfl

variable [lawful : LawfulPublishedKey κ]

theorem addRow_ok {definition : SetDefinition κ} (declarable : definition.IsDeclarable)
    (fits : (source κ).RowFits definition) (free : state.sets[definition.id]? = none) :
    addRow (Column.context (SetDefinition.columns κ)) definition.id.toUInt32.toNat
      ((source κ).form definition) state = .ok () (state.add definition) := by
  have index : definition.id.toUInt32.toNat = definition.id.toNat := UInt16.toNat_toUInt32 _
  have most := definition.id.toNat_lt
  have unknown : (state.get? definition.id).isSome = false := by
    unfold GlobalSets.get?
    rw [free]
    rfl
  have row : SetDefinition.decodeRow (Column.context (SetDefinition.columns κ)) definition.id
      ((source κ).form definition) = .ok definition :=
    definition.decodeRow_rowForm declarable fits.1
  unfold addRow
  rw [index, if_neg (by omega)]
  change (if (state.get? (UInt16.ofNat definition.id.toNat)).isSome then throw _ else
    Summary.lift (SetDefinition.decodeRow _ (UInt16.ofNat definition.id.toNat) _) >>= _) state = _
  rw [UInt16.ofNat_toNat, unknown, if_neg Bool.false_ne_true, row]
  rfl

theorem addEntries_ok (declarable : ∀ definition ∈ sets.toList, definition.IsDeclarable)
    {taken : List (SetDefinition κ)} (fits : ∀ definition ∈ taken, (source κ).RowFits definition)
    (arrived : SetsArrived sets isFirst (taken ++ left) state) (count : Nat) :
    ∃ after, addEntries (Column.context (SetDefinition.columns κ)) count
        (taken.map fun definition => ⟨definition.id.toUInt32.toNat, some .set, none,
          .container .elementList ((source κ).form definition)⟩) state =
          .ok (count + taken.length) after ∧
      SetsArrived sets isFirst left after := by
  -- Every row is the first one that is still missing when it is read.
  induction taken generalizing state count with
  | nil => exact ⟨state, rfl, arrived⟩
  | cons definition rest ih =>
    have member : definition ∈ sets.toList := arrived.suffix.subset List.mem_cons_self
    have free : state.sets[definition.id]? = none := by
      rw [arrived.get?, if_pos (by simp)]
    have added := addRow_ok (declarable _ member) (fits _ List.mem_cons_self) free
    obtain ⟨after, received, done⟩ :=
      ih (fun other member => fits other (List.mem_cons_of_mem _ member)) arrived.add (count + 1)
    refine ⟨after, ?_, done⟩
    rw [List.length_cons, Nat.add_comm rest.length, ← Nat.add_assoc, ← received]
    exact Program.bind_ok added

theorem decodePart_ok {sent : Verbosity} {columns : Bytes} {items taken : List (SetDefinition κ)}
    {part : Part} (declarable : ∀ definition ∈ sets.toList, definition.IsDeclarable)
    (summarized : Summary.Fits sets.elements)
    (defined : Column.encodedDefinition (SetDefinition.columns κ) = .ok columns)
    (takes : Part.Takes (source κ) ((sets.edition sent).partPlan columns isFirst)
      (if isFirst then Summary.form sets.elements else []) items part taken left)
    (arrived : SetsArrived sets isFirst items state) :
    ∃ after, decodePart part.bytes state = .ok taken.length after ∧
      SetsArrived sets false left after := by
  obtain ⟨middle, applied, begun⟩ : ∃ middle,
      (if isFirst then (sets.elements.map Summary.entry).forM applySummary else pure ()) state =
        .ok () middle ∧ SetsArrived sets false items middle := by
    cases isFirst with
    | false => exact ⟨state, rfl, arrived⟩
    | true =>
      refine ⟨_, applySummary_ok arrived.version arrived.dictionaryId, ?_⟩
      exact ⟨arrived.suffix, arrived.get?, rfl, rfl⟩
  rw [takes.split] at begun
  obtain ⟨after, added, done⟩ := addEntries_ok declarable takes.rows begun 0
  refine ⟨after, ?_, done⟩
  rw [Nat.zero_add] at added
  rw [← added]
  have indices (definition : SetDefinition κ) :
      definition.id.toUInt32.toNat ≤ Varying.max30 := by
    rw [UInt16.toNat_toUInt32]
    exact Nat.le_trans (Nat.le_of_lt definition.id.toNat_lt) (by decide)
  exact Edition.takeIn_ok (sets.edition sent) Vector.Content.header applySummary
    (fun context vector => addEntries context 0 vector.entries) defined
    SetDefinition.columns_declarable elements_plain summarized
    (Edition.vector_of_takes takes (fun _ => rfl) indices) rfl applied

/-- Global set definitions come back from their parts, whatever keys they have. -/
theorem receive_ok {sent : Verbosity} (tells : sent.includes .minimal)
    (declarable : ∀ definition ∈ sets.toList, definition.IsDeclarable) {capacities : List Nat}
    {parts : List Part} (delivers : (Publication.ofSets sets sent).Delivers capacities parts) :
    receive decodePart parts empty = .ok sets.size sets := by
  obtain ⟨columns, defined, summarized, conveys⟩ :=
    Edition.delivers_conveys (edition_sends tells) delivers
  obtain ⟨received, decoded, arrived⟩ := Edition.Conveys.receive_ok (SetsArrived sets)
    (decodePart_ok declarable summarized defined) conveys setsArrived_empty
  have all : sets.toList.length = sets.size := by
    rw [toList, List.length_map]
    exact Std.ExtTreeMap.length_toList
  rw [decoded, all, arrived.eq]

end

/-- Definitions for field lists and for element lists come back from the parts that carry them, whatever
sizes the parts have. -/
theorem receive_sets {sent : Verbosity} (tells : sent.includes .minimal) (capacities : List Nat)
    (parts : List Part) :
    (∀ sets : GlobalSets Int16, (∀ definition ∈ sets.toList, definition.IsDeclarable) →
      (Publication.ofSets sets sent).Delivers capacities parts →
        receive decodePart parts empty = .ok sets.size sets) ∧
    ∀ sets : GlobalSets String, (∀ definition ∈ sets.toList, definition.IsDeclarable) →
      (Publication.ofSets sets sent).Delivers capacities parts →
        receive decodePart parts empty = .ok sets.size sets :=
  ⟨fun _ declarable => receive_ok tells declarable, fun _ declarable => receive_ok tells declarable⟩

def outermost {κ : Type} (first second : κ) : GlobalSets κ :=
  (GlobalSets.empty.add ⟨0, #[⟨first, .real⟩, ⟨second, .int2⟩]⟩).add ⟨0xFFFF, #[]⟩

theorem outermost_declarable {κ : Type} (first second : κ) :
    ∀ definition ∈ (outermost first second).toList, definition.IsDeclarable := by
  have all : (outermost first second).toList =
      [⟨0, #[⟨first, .real⟩, ⟨second, .int2⟩]⟩, ⟨0xFFFF, #[]⟩] := rfl
  rw [all]
  simp [SetDefinition.IsDeclarable, DataType.setLayout?]

/-- In two parts each. -/
theorem receive_sets_outermost :
    let fields := outermost (22 : Int16) (-1)
    let elements := outermost "" "X"
    receive decodePart ((Publication.ofSets fields .minimal).delivered [90, 90]) empty =
        .ok 2 fields ∧
      receive decodePart ((Publication.ofSets elements .minimal).delivered [90, 90]) empty =
        .ok 2 elements := by
  constructor
  · refine (receive_sets rfl _ _).1 (outermost (22 : Int16) (-1)) (outermost_declarable _ _)
      (Publication.Completes.delivers ?_)
    decide +kernel
  · refine (receive_sets rfl _ _).2 (outermost "" "X") (outermost_declarable _ _)
      (Publication.Completes.delivers ?_)
    decide +kernel

end GlobalSets

end MarketWire
