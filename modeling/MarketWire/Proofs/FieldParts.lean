import MarketWire.Proofs.Links
import MarketWire.Proofs.Receipts

/-! Definitions of fields, sent in parts and taken in again.

A row tells as much of a definition as its columns do; a receiver that wants less passes over the
rest. What has not arrived yet is undefined at the receiver, whatever else it knows.
-/

set_option autoImplicit false

namespace MarketWire

namespace FieldDefinition

/-- A definition as it arrives: with the type as which values are read, and with what people read only
if it is told and wanted. -/
def conveyed (field : FieldDefinition) (told : Bool) : FieldDefinition :=
  { field with
    wireType := field.wireType.base
    enumLength := if told then field.enumLength else 0
    longName := if told then field.longName else "" }

theorem conveyed_true {field : FieldDefinition} (based : field.wireType.base = field.wireType) :
    field.conveyed true = field := by
  unfold conveyed
  rw [based]
  rfl

theorem columns_declarable (sent : Verbosity) :
    ∀ column ∈ columns sent, column.type.setLayout?.isSome := by
  unfold columns
  cases sent.includes .normal <;> decide

theorem columns_filled (sent : Verbosity) : columns sent ≠ [] := by
  unfold columns
  cases sent.includes .normal <;> exact List.cons_ne_nil _ _

variable (field : FieldDefinition) {sent : Verbosity}

theorem cells_suit (sent : Verbosity) :
    ∀ column ∈ columns sent, (column.cell field).Suits column.type := by
  unfold columns
  cases sent.includes .normal <;>
    simp [minimalColumns, normalColumns, Cell.Suits, Cell.content, Primitive.isPlain,
      Primitive.dataType, Primitive.ascii, DataType.base, ByteType.dataType]

/-- A row tells what its columns and the receiver agree on. -/
theorem decodeRow_rowForm (wanted : Verbosity)
    (fits : ∀ column ∈ columns sent, (column.cell field).Fits column.type) :
    decodeRow (Column.context (columns sent)) wanted (Column.rowForm (columns sent) field) =
      .ok (field.conveyed (sent.includes .normal && wanted.includes .normal)) := by
  unfold decodeRow
  rw [Element.readable_rowForm Column.context_knows (cells_suit field sent) fits]
  change (List.foldlM (Received.add wanted) {} _ >>= _) = _
  unfold columns
  -- Each element sets one attribute of its own, whatever the others have set.
  cases sent.includes .normal with
  | false =>
    simp [-bind_pure_comp, minimalColumns, Received.add, Received.definition, Received.demand, Element.demand,
      Program.ok_bind, conveyed]
    rfl
  | true =>
    cases wants : wanted.includes .normal <;>
      simp [-bind_pure_comp, minimalColumns, normalColumns, Received.add, Received.definition, Received.demand,
        Element.demand, Program.ok_bind, conveyed, wants]
    all_goals rfl

end FieldDefinition

namespace Dictionary

variable {dictionary : Dictionary} {sent : Verbosity}

/-! ## Sending -/

def fieldSource (sent : Verbosity) : Part.Source FieldDefinition :=
  .ofColumns (FieldDefinition.columns sent) (·) (·.fid.toInt32) (fun _ => Series.openEntry)
    fun _ => []

def fieldElements (dictionary : Dictionary) : List (String × Primitive) :=
  [Summary.kindElement .fields, Summary.idElement dictionary.id,
   (Summary.versionName, .ascii dictionary.fieldTags.version)]

theorem WellFormed.minFid?_le (wellFormed : dictionary.WellFormed) {field : FieldDefinition}
    (member : field ∈ dictionary.toList) :
    (dictionary.minFid?.map (·.toInt32)).getD 0 ≤ field.fid.toInt32 := by
  have defined : field.fid ∈ dictionary.definitions := by
    rw [Std.ExtTreeMap.mem_iff_isSome_getElem?]
    exact Option.isSome_of_eq_some (wellFormed.mem_toList.mp member)
  cases least : dictionary.minFid? with
  | none =>
    have empty := Std.ExtTreeMap.minKey?_eq_none_iff.mp least
    rw [empty] at defined
    exact absurd defined Std.ExtTreeMap.not_mem_empty
  | some lowest =>
    have below := (Std.ExtTreeMap.minKey?_eq_some_iff_mem_and_forall.mp least).2 _ defined
    change lowest.toInt32 ≤ field.fid.toInt32
    rw [Int32.le_iff_toInt_le, Int16.toInt_toInt32, Int16.toInt_toInt32]
    exact Int16.le_iff_toInt_le.mp (Std.isLE_compare.mp below)

theorem fieldEdition_sends (wellFormed : dictionary.WellFormed) (tells : sent.includes .minimal) :
    (dictionary.fieldEdition sent).Sends (fieldSource sent) dictionary.toList
      (Summary.form dictionary.fieldElements) (Summary.Fits dictionary.fieldElements) where
  hasRows := decide_eq_true (Verbosity.ne_info tells)
  rows := rfl
  ascending := by
    refine wellFormed.toList_ascending.imp fun {first second} before => ?_
    change first.fid.toInt32 < second.fid.toInt32
    rw [Int32.lt_iff_toInt_lt, Int16.toInt_toInt32, Int16.toInt_toInt32]
    exact Int16.lt_iff_toInt_lt.mp before
  first _ member := wellFormed.minFid?_le member
  writes field _ plan rows := by
    have hasPayload := Part.hasPayload_of_elementList rows
    exact Part.Source.ofColumns_writes (Part.opens_series hasPayload)
      (FieldDefinition.columns_filled sent) fun column member =>
        (FieldDefinition.cells_suit field sent column member).uniform
  summarizes := Summary.write_extends _

/-! ## Taking in -/

/-- The definitions at a receiver, as long as the last of them have not arrived: which ones it has, what
they tell, and what the first part has told. -/
structure FieldsArrived (dictionary : Dictionary) (told isFirst : Bool) (left : List FieldDefinition)
    (state : Dictionary) : Prop where
  suffix : left <:+ dictionary.toList
  get? : ∀ fid, state.get? fid =
    if fid ∈ left.map (·.fid) then none else (dictionary.get? fid).map (·.conveyed told)
  version : state.fieldTags.version = if isFirst then "" else dictionary.fieldTags.version
  id : isFirst = false → state.id = dictionary.id

structure SameTables (state after : Dictionary) : Prop where
  links : after.links = state.links
  tables : after.tables = state.tables
  enumTags : after.enumTags = state.enumTags

section
variable {told isFirst : Bool} {left : List FieldDefinition} {state after : Dictionary}

theorem SameTables.trans {last : Dictionary} (first : SameTables state after)
    (second : SameTables after last) : SameTables state last :=
  ⟨second.links.trans first.links, second.tables.trans first.tables,
   second.enumTags.trans first.enumTags⟩

theorem FieldsArrived.admits {field : FieldDefinition} (wellFormed : dictionary.WellFormed)
    (arrived : FieldsArrived dictionary told isFirst (field :: left) state)
    (silent : state.IsSilent) :
    state.Admits (field.conveyed told) := by
  have member := wellFormed.mem_toList.mp (arrived.suffix.subset List.mem_cons_self)
  obtain ⟨-, fid, wireType⟩ := wellFormed.defined _ _ member
  refine ⟨fid, ?_, ?_, fun link linked => .inl (silent _ link linked)⟩
  -- What travels is the base of a type, and no known type has an unknown base.
  · have base (type : DataType) : type.base = .unknown → type = .unknown := by
      cases type <;> decide
    exact fun unknown => wireType (base _ unknown)
  · change state.get? field.fid = none
    rw [arrived.get?, if_pos (by simp)]

theorem FieldsArrived.insert {field : FieldDefinition} (wellFormed : dictionary.WellFormed)
    (arrived : FieldsArrived dictionary told isFirst (field :: left) state) :
    FieldsArrived dictionary told isFirst left (state.insertField (field.conveyed told)) := by
  refine ⟨(List.suffix_cons _ _).trans arrived.suffix, fun fid => ?_, arrived.version, arrived.id⟩
  have member := wellFormed.mem_toList.mp (arrived.suffix.subset List.mem_cons_self)
  have distinct : ((field :: left).map (·.fid)).Nodup :=
    wellFormed.toList_nodup.sublist (arrived.suffix.sublist.map _)
  exact getElem?_insert_first arrived.get? (List.nodup_cons.mp distinct).1 (by rw [member]; rfl) fid

theorem addFieldRows_ok {wanted : Verbosity} (wellFormed : dictionary.WellFormed)
    {taken : List FieldDefinition} (fits : ∀ field ∈ taken, (fieldSource sent).RowFits field)
    (arrived : FieldsArrived dictionary (sent.includes .normal && wanted.includes .normal) isFirst
      (taken ++ left) state)
    (silent : state.IsSilent)
    (count : Nat) :
    ∃ after, addFieldRows (Column.context (FieldDefinition.columns sent)) wanted count
        (taken.map fun field => .container .elementList ((fieldSource sent).form field)) state =
          .ok (count + taken.length) after ∧
      FieldsArrived dictionary (sent.includes .normal && wanted.includes .normal) isFirst left after ∧
      SameTables state after := by
  -- Every row is the first one that is still missing when it is read.
  induction taken generalizing state count with
  | nil => exact ⟨state, rfl, arrived, rfl, rfl, rfl⟩
  | cons field rest ih =>
    have row := FieldDefinition.decodeRow_rowForm field wanted (fits field List.mem_cons_self).1
    have added := addField_ok (arrived.admits wellFormed silent)
    obtain ⟨after, received, done, same⟩ := ih
      (fun other member => fits other (List.mem_cons_of_mem _ member))
      (arrived.insert wellFormed) silent (count + 1)
    refine ⟨after, ?_, done, same.links, same.tables, same.enumTags⟩
    rw [List.length_cons, Nat.add_comm rest.length, ← Nat.add_assoc, ← received]
    change (Summary.lift (FieldDefinition.decodeRow _ wanted (Column.rowForm _ field)) >>= _) state = _
    rw [row, Program.bind_ok (Summary.lift_ok _ _)]
    exact Program.bind_ok added

theorem applyFieldSummary_ok (id : state.id = 0 ∨ state.id = dictionary.id) :
    (dictionary.fieldElements.map Summary.entry).forM applyFieldSummary state =
      .ok () { state with
        id := dictionary.id
        fieldTags := { state.fieldTags with
          version := setOnce state.fieldTags.version dictionary.fieldTags.version } } := by
  have kind : applyFieldSummary (Summary.entry (Summary.kindElement .fields)) state =
      .ok () state := by
    unfold applyFieldSummary
    rw [Summary.name_entry]
    exact Summary.checkKind_ok .fields state
  have own : applyFieldSummary (Summary.entry (Summary.idElement dictionary.id)) state =
      .ok () { state with id := dictionary.id } := by
    unfold applyFieldSummary
    rw [Summary.name_entry]
    exact (Summary.id_bind _ fun id => checkId id true).trans (checkId_ok id)
  have version (state : Dictionary) : applyFieldSummary
      (Summary.entry (Summary.versionName, .ascii dictionary.fieldTags.version)) state =
        .ok () { state with fieldTags := { state.fieldTags with
          version := setOnce state.fieldTags.version dictionary.fieldTags.version } } := by
    unfold applyFieldSummary
    rw [Summary.name_entry]
    exact Summary.text_bind _ _ _
  change (applyFieldSummary _ >>= fun _ => applyFieldSummary _ >>= fun _ => applyFieldSummary _ >>=
    fun _ => pure ()) state = _
  rw [Program.bind_ok kind, Program.bind_ok own, Program.bind_ok (version _)]
  rfl

theorem fieldElements_plain : ∀ element ∈ dictionary.fieldElements, element.2.isPlain := by
  simp [fieldElements, Summary.kindElement, Summary.idElement, Primitive.ascii, Primitive.isPlain]

/-- A part makes the definitions arrive that it has taken. -/
theorem decodeFields_ok {wanted : Verbosity} {definition : Bytes} {items taken : List FieldDefinition}
    {part : Part} (wellFormed : dictionary.WellFormed)
    (summarized : Summary.Fits dictionary.fieldElements)
    (defined : Column.encodedDefinition (FieldDefinition.columns sent) = .ok definition)
    (takes : Part.Takes (fieldSource sent) ((dictionary.fieldEdition sent).partPlan definition isFirst)
      (if isFirst then Summary.form dictionary.fieldElements else []) items part taken left)
    (arrived : FieldsArrived dictionary (sent.includes .normal && wanted.includes .normal) isFirst
      items state)
    (agrees : Agrees dictionary state) :
    ∃ after, decodeFields wanted part.bytes state = .ok taken.length after ∧
      FieldsArrived dictionary (sent.includes .normal && wanted.includes .normal) false left after ∧
      SameTables state after := by
  -- The summary comes first and changes neither definitions nor tables.
  obtain ⟨middle, applied, begun, kept⟩ : ∃ middle,
      (if isFirst then (dictionary.fieldElements.map Summary.entry).forM applyFieldSummary
        else pure ()) state = .ok () middle ∧
      FieldsArrived dictionary (sent.includes .normal && wanted.includes .normal) false items middle ∧
      SameTables state middle := by
    cases isFirst with
    | false => exact ⟨state, rfl, arrived, rfl, rfl, rfl⟩
    | true =>
      refine ⟨_, applyFieldSummary_ok agrees.id, ?_, rfl, rfl, rfl⟩
      refine ⟨arrived.suffix, arrived.get?, ?_, fun _ => rfl⟩
      change setOnce state.fieldTags.version _ = _
      rw [arrived.version]
      rfl
  have silent : middle.IsSilent := fun fid link linked => agrees.silent fid link (kept.links ▸ linked)
  rw [takes.split] at begun
  obtain ⟨after, added, done, same⟩ := addFieldRows_ok wellFormed takes.rows begun silent 0
  refine ⟨after, ?_, done, kept.trans same⟩
  rw [Nat.zero_add] at added
  rw [← added]
  exact Edition.takeIn_ok (dictionary.fieldEdition sent) Series.Content.header applyFieldSummary
    (fun context series => addFieldRows context wanted 0 series.entries) defined
    (FieldDefinition.columns_declarable sent) fieldElements_plain summarized
    (Edition.series_of_takes takes fun _ => rfl) rfl applied

end

theorem Agrees.after_fields {told : Bool} {left : List FieldDefinition} {state after : Dictionary}
    {wanted : Verbosity} {part : Bytes} {count : Nat} (agrees : Agrees dictionary state)
    (decoded : decodeFields wanted part state = .ok count after)
    (arrived : FieldsArrived dictionary told false left after) (same : SameTables state after) :
    Agrees dictionary after where
  id := .inr (arrived.id rfl)
  silent fid link linked := agrees.silent fid link (same.links ▸ linked)
  wellFormed := agrees.wellFormed.of_ok (wellFormed_invariant.updates.alike.decodeFields wanted part).keeps decoded

theorem fieldsArrived_empty (wellFormed : dictionary.WellFormed) (told : Bool) :
    FieldsArrived dictionary told true dictionary.toList empty := by
  refine ⟨List.suffix_rfl, getElem?_empty_listed fun fid known => ?_, rfl,
    fun impossible => nomatch impossible⟩
  rw [Option.isSome_map] at known
  obtain ⟨field, found⟩ := Option.isSome_iff_exists.mp known
  obtain ⟨rfl, -⟩ := wellFormed.defined fid field found
  exact List.mem_map.mpr ⟨field, wellFormed.mem_toList.mpr found, rfl⟩

theorem FieldsArrived.definitions {told : Bool} {state : Dictionary}
    (arrived : FieldsArrived dictionary told false [] state) :
    state.definitions = dictionary.definitions.map fun _ field => field.conveyed told := by
  apply Std.ExtTreeMap.ext_getElem?
  intro fid
  rw [Std.ExtTreeMap.getElem?_map]
  exact arrived.get? fid

theorem FieldsArrived.toList {told : Bool} {state : Dictionary}
    (arrived : FieldsArrived dictionary told false [] state) :
    state.toList = dictionary.toList.map (·.conveyed told) := by
  unfold Dictionary.toList
  rw [arrived.definitions, Std.ExtTreeMap.toList_map, List.map_map, List.map_map]
  rfl

theorem FieldsArrived.bounds {told : Bool} {state : Dictionary}
    (arrived : FieldsArrived dictionary told false [] state) :
    state.size = dictionary.size ∧ state.minFid? = dictionary.minFid? ∧
      state.maxFid? = dictionary.maxFid? := by
  unfold size minFid? maxFid?
  rw [arrived.definitions]
  refine ⟨Std.ExtTreeMap.size_map, Option.ext fun fid => ?_, Option.ext fun fid => ?_⟩
  · simp only [Std.ExtTreeMap.minKey?_eq_some_iff_mem_and_forall, Std.ExtTreeMap.mem_map]
  · simp only [Std.ExtTreeMap.maxKey?_eq_some_iff_mem_and_forall, Std.ExtTreeMap.mem_map]

/-- Definitions arrive whatever sizes the parts have that carry them, each as far as sender and
receiver agree to tell it. -/
theorem receive_fields (wanted : Verbosity) (reachable : Reachable dictionary)
    (tells : sent.includes .minimal) {capacities : List Nat} {parts : List Part}
    (delivers : (Publication.ofDictionary dictionary .fields sent).Delivers capacities parts) :
    ∃ received, receive (decodeFields wanted) parts empty = .ok dictionary.size received ∧
      received.size = dictionary.size ∧ received.minFid? = dictionary.minFid? ∧
      received.maxFid? = dictionary.maxFid? ∧ received.id = dictionary.id ∧
      received.fieldTags.version = dictionary.fieldTags.version ∧
      received.toList =
        dictionary.toList.map (·.conveyed (sent.includes .normal && wanted.includes .normal)) := by
  have wellFormed := reachable.wellFormed
  obtain ⟨definition, defined, summarized, conveys⟩ :=
    Edition.delivers_conveys (fieldEdition_sends wellFormed tells) delivers
  obtain ⟨received, decoded, arrived, -⟩ := Edition.Conveys.receive_ok
    (fun isFirst left state =>
      FieldsArrived dictionary (sent.includes .normal && wanted.includes .normal) isFirst left state ∧
        Agrees dictionary state)
    (fun takes ⟨arrived, agrees⟩ => by
      obtain ⟨after, decoded, next, same⟩ :=
        decodeFields_ok wellFormed summarized defined takes arrived agrees
      exact ⟨after, decoded, next, agrees.after_fields decoded next same⟩)
    conveys ⟨fieldsArrived_empty wellFormed _, agrees_empty _⟩
  have all : dictionary.toList.length = dictionary.size := by
    rw [toList, List.length_map]
    exact Std.ExtTreeMap.length_toList
  obtain ⟨size, least, most⟩ := arrived.bounds
  exact ⟨received, all ▸ decoded, size, least, most, arrived.id rfl, arrived.version, arrived.toList⟩

-- The least identifier as the first of a list, in which form it can be evaluated.
theorem minFid?_eq_head? : dictionary.minFid? = dictionary.definitions.keys.head? :=
  Std.ExtTreeMap.minKey?_eq_head?_keys

def quotes : Dictionary :=
  let bid : FieldDefinition := { fid := 22, acronym := "BID", wireType := .real }
  let ask : FieldDefinition := { fid := -1, acronym := "ASK", wireType := .real, enumLength := 3 }
  Call.run (Call.run empty (.addField bid)) (.addField ask)

theorem quotes_reachable : Reachable quotes := by
  unfold quotes
  exact .call _ (.call _ .empty)

/-- In two parts, of which the receiver wants more than they tell. -/
theorem receive_fields_quotes :
    let parts := (Publication.ofDictionary quotes .fields .minimal).delivered [120, 120]
    parts.length = 2 ∧ ∃ received, receive (decodeFields .normal) parts empty = .ok 2 received ∧
      received.toList = quotes.toList.map (·.conveyed false) := by
  obtain ⟨completes, two⟩ : (Publication.ofDictionary quotes .fields .minimal).Completes [120, 120] ∧
      ((Publication.ofDictionary quotes .fields .minimal).delivered [120, 120]).length = 2 := by
    unfold Publication.ofDictionary fieldEdition
    rw [minFid?_eq_head?]
    decide +kernel
  obtain ⟨received, decoded, -, -, -, -, -, same⟩ :=
    receive_fields .normal quotes_reachable rfl completes.delivers
  exact ⟨two, received, decoded, same⟩

end Dictionary

end MarketWire
