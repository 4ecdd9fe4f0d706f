import MarketWire.Proofs.FieldParts

/-! Tables of enumerated values, sent in parts and taken in again.

A row is a table as arrays of the same length. What has not arrived yet are the last tables, so that
those at the receiver have the positions that they have at the sender.
-/

set_option autoImplicit false

namespace MarketWire

/-- A label as it arrives: its meaning only if it is told and wanted. -/
def EnumLabel.conveyed (label : EnumLabel) (told : Bool) : EnumLabel :=
  { label with meaning := if told then label.meaning else "" }

namespace EnumTable

def conveyed (table : EnumTable) (told : Bool) : EnumTable :=
  { table with labels := table.labels.map fun _ label => label.conveyed told }

theorem toList_conveyed (table : EnumTable) (told : Bool) :
    (table.conveyed told).toList =
      table.toList.map fun (value, label) => (value, label.conveyed told) :=
  Std.ExtTreeMap.toList_map

theorem get?_conveyed (table : EnumTable) (told : Bool) (value : UInt16) :
    (table.conveyed told).get? value = (table.get? value).map (·.conveyed told) :=
  Std.ExtTreeMap.getElem?_map

theorem conveyed_true (table : EnumTable) : table.conveyed true = table := by
  have labels : (table.labels.map fun _ label => label.conveyed true) = table.labels := by
    apply Std.ExtTreeMap.ext_getElem?
    intro value
    rw [Std.ExtTreeMap.getElem?_map]
    exact Option.map_id'
  unfold conveyed
  rw [labels]

/-! ## Tables from lists -/

theorem addLabels_ok {labels : Std.ExtTreeMap UInt16 EnumLabel} {values : List (UInt16 × EnumLabel)}
    (distinct : (values.map Prod.fst).Nodup) (fresh : ∀ entry ∈ values, entry.1 ∉ labels) :
    addLabels labels values = .ok (labels.insertMany values) := by
  induction values generalizing labels with
  | nil => rfl
  | cons entry rest ih =>
    obtain ⟨value, label⟩ := entry
    obtain ⟨first, others⟩ := List.nodup_cons.mp distinct
    obtain ⟨free, behind⟩ := List.forall_mem_cons.mp fresh
    unfold addLabels
    rw [if_neg free, ih others, Std.ExtTreeMap.insertMany_cons]
    intro entry member
    rw [Std.ExtTreeMap.mem_insert, Std.LawfulEqCmp.compare_eq_iff_eq]
    rintro (same | taken)
    · exact first (List.mem_map.mpr ⟨entry, member, same.symm⟩)
    · exact behind entry member taken

theorem keys_nodup (table : EnumTable) : (table.toList.map Prod.fst).Nodup := by
  refine List.pairwise_map.mpr (Std.ExtTreeMap.distinct_keys_toList.imp ?_)
  intro first second different same
  exact different (Std.LawfulEqCmp.compare_eq_iff_eq.mpr same)

/-- The labels of a list of values are those in the list. -/
theorem getElem?_insertMany {values : List (UInt16 × EnumLabel)} (distinct : (values.map Prod.fst).Nodup)
    {value : UInt16} {label : EnumLabel} :
    ((∅ : Std.ExtTreeMap UInt16 EnumLabel).insertMany values)[value]? = some label ↔ (value, label) ∈ values := by
  have different : values.Pairwise fun first second => ¬ compare first.1 second.1 = .eq :=
    (List.pairwise_map.mp distinct).imp fun different same =>
      different (Std.LawfulEqCmp.compare_eq_iff_eq.mp same)
  have present {label : EnumLabel} (member : (value, label) ∈ values) :
      ((∅ : Std.ExtTreeMap UInt16 EnumLabel).insertMany values)[value]? = some label :=
    Std.ExtTreeMap.getElem?_insertMany_list_of_mem Std.ReflCmp.compare_self different member
  refine ⟨fun found => ?_, present⟩
  by_cases known : value ∈ values.map Prod.fst
  · obtain ⟨⟨_, own⟩, member, rfl⟩ := List.mem_map.mp known
    rw [present member] at found
    cases found
    exact member
  · rw [Std.ExtTreeMap.getElem?_insertMany_list_of_contains_eq_false, Std.ExtTreeMap.getElem?_empty] at found
    · cases found
    · rwa [List.contains_eq_mem, decide_eq_false_iff_not]

theorem ofList_toList (table : EnumTable) (filled : table.fids ≠ []) :
    ofList table.fids table.toList = .ok table := by
  have nonempty : table.fids.isEmpty = false := by simpa using filled
  have labels : (∅ : Std.ExtTreeMap UInt16 EnumLabel).insertMany table.toList = table.labels := by
    apply Std.ExtTreeMap.ext_getElem?
    intro value
    refine Option.ext fun label => ?_
    rw [getElem?_insertMany table.keys_nodup]
    exact Std.ExtTreeMap.mem_toList_iff_getElem?_eq_some
  unfold ofList
  rw [nonempty, addLabels_ok table.keys_nodup (by simp), labels]
  rfl

/-! ## Rows -/

theorem columns_declarable (sent : Verbosity) :
    ∀ column ∈ columns sent, column.type.setLayout?.isSome := by
  unfold columns
  cases sent.includes .verbose <;> decide

theorem columns_filled (sent : Verbosity) : columns sent ≠ [] := by
  unfold columns
  cases sent.includes .verbose <;> exact List.cons_ne_nil _ _

variable (table : EnumTable) {sent : Verbosity}

theorem fids_suit :
    (Cell.items ⟨.int, 2⟩ (table.fids.map fun fid => .int fid.toInt64)).Suits .array :=
  ⟨rfl, rfl, by decide, List.forall_mem_map.mpr fun _ _ => ⟨rfl, rfl⟩⟩

theorem values_suit :
    (Cell.items ⟨.enum, 0⟩ (table.toList.map fun entry => .enum entry.1)).Suits .array :=
  ⟨rfl, rfl, by decide, List.forall_mem_map.mpr fun _ _ => ⟨rfl, rfl⟩⟩

theorem texts_suit (text : UInt16 × EnumLabel → Bytes) :
    (Cell.items ⟨.ascii, 0⟩ (table.toList.map fun entry => .bytes .ascii (text entry))).Suits .array :=
  ⟨rfl, rfl, by decide, List.forall_mem_map.mpr fun _ _ => ⟨rfl, rfl⟩⟩

theorem cells_suit (sent : Verbosity) :
    ∀ column ∈ columns sent, (column.cell table).Suits column.type := by
  have minimal : ∀ column ∈ minimalColumns, (column.cell table).Suits column.type :=
    List.forall_mem_cons.mpr ⟨table.fids_suit, List.forall_mem_cons.mpr ⟨table.values_suit,
      List.forall_mem_cons.mpr ⟨table.texts_suit (·.2.display), by simp⟩⟩⟩
  unfold columns
  cases sent.includes .verbose with
  | false => exact minimal
  | true =>
    exact List.forall_mem_append.mpr ⟨minimal, List.forall_mem_cons.mpr
      ⟨table.texts_suit fun entry => Bytes.ofString entry.2.meaning, by simp⟩⟩

namespace Received

theorem labels_map (list : List (UInt16 × EnumLabel)) :
    labels (list.map Prod.fst) (list.map (·.2.display))
      (list.map fun entry => Bytes.ofString entry.2.meaning) = list := by
  induction list with
  | nil => rfl
  | cons entry rest ih =>
    simp only [List.map_cons, labels, List.headD_cons, List.tail_cons, ih, Element.textOf_ofString]

theorem labels_nil (list : List (UInt16 × EnumLabel)) :
    labels (list.map Prod.fst) (list.map (·.2.display)) [] =
      list.map fun (value, label) => (value, label.conveyed false) := by
  have noText : Element.textOf [] = "" := Element.textOf_ofString ""
  induction list with
  | nil => rfl
  | cons entry rest ih =>
    simp only [List.map_cons, labels, List.headD_nil, List.tail_nil, ih, noText]
    rfl

end Received

/-! ## Cells of a row -/

section
variable (wanted : Verbosity) (received : Received)

theorem add_fids
    (fits : (Cell.items ⟨.int, 2⟩ (table.fids.map fun fid => .int fid.toInt64)).Fits .array) :
    received.add wanted (Column.element table ⟨"FIDS", .array, fun table =>
        .items ⟨.int, 2⟩ (table.fids.map fun fid => .int fid.toInt64)⟩) =
      .ok { received with fids := table.fids } := by
  have holds (fid : Int16) :
      (Element.signed? 16 (.int fid.toInt64)).map Int16.ofInt = some fid := by
    rw [Element.signed?_int16, Option.map_some, Int16.ofInt_toInt]
  have read := Element.itemsAs_element table "FIDS" .array
    (fun item => (Element.signed? 16 item).map Int16.ofInt) table.fids_suit fits holds
  rw [List.map_id'] at read
  unfold Received.add
  rw [Element.name_element]
  cases wanted.includes .verbose <;> exact congrArg (· >>= _) read

theorem add_values
    (fits : (Cell.items ⟨.enum, 0⟩ (table.toList.map fun entry => .enum entry.1)).Fits .array) :
    received.add wanted
        (Column.element table (labelColumn "VALUE" .enum fun (value, _) => .enum value)) =
      .ok { received with values := some (table.toList.map Prod.fst) } := by
  have holds (entry : UInt16 × EnumLabel) :
      (Element.unsigned? 16 (.enum entry.1)).map UInt16.ofNat = some entry.1 := by
    rw [Element.unsigned?_enum, Option.map_some, UInt16.ofNat_toNat]
  have read := Element.itemsAs_element table "VALUE" .array
    (fun item => (Element.unsigned? 16 item).map UInt16.ofNat) table.values_suit fits holds
  unfold Received.add
  rw [Element.name_element]
  cases wanted.includes .verbose <;> exact congrArg (· >>= _) read

theorem itemsAs_texts (title : String) (text : UInt16 × EnumLabel → Bytes)
    (fits : (Cell.items ⟨.ascii, 0⟩
      (table.toList.map fun entry => .bytes .ascii (text entry))).Fits .array) :
    Element.itemsAs Element.content? (Column.element table
      (labelColumn title .ascii fun entry => .bytes .ascii (text entry))) =
        .ok (table.toList.map text) :=
  Element.itemsAs_element table title .array Element.content? (table.texts_suit text) fits fun _ =>
    Element.content?_reread .ascii _

theorem add_displays
    (fits : (Cell.items ⟨.ascii, 0⟩
      (table.toList.map fun entry => .bytes .ascii entry.2.display)).Fits .array) :
    received.add wanted
        (Column.element table
          (labelColumn "DISPLAY" .ascii fun (_, label) => .bytes .ascii label.display)) =
      .ok { received with displays := some (table.toList.map (·.2.display)) } := by
  have read := itemsAs_texts table "DISPLAY" (·.2.display) fits
  unfold Received.add
  rw [Element.name_element]
  cases wanted.includes .verbose <;> exact congrArg (· >>= _) read

theorem add_meanings
    (fits : (Cell.items ⟨.ascii, 0⟩
      (table.toList.map fun entry => .ascii entry.2.meaning)).Fits .array) :
    received.add wanted
        (Column.element table
          (labelColumn "MEANING" .ascii fun (_, label) => .ascii label.meaning)) =
      .ok (if wanted.includes .verbose then
        { received with meanings := table.toList.map fun entry => Bytes.ofString entry.2.meaning }
        else received) := by
  have read := itemsAs_texts table "MEANING" (fun entry => Bytes.ofString entry.2.meaning) fits
  unfold Received.add
  rw [Element.name_element]
  cases wanted.includes .verbose with
  | false => rfl
  | true => exact congrArg (· >>= _) read

end

theorem decodeRow_rowForm (wanted : Verbosity)
    (fits : ∀ column ∈ columns sent, (column.cell table).Fits column.type) :
    decodeRow (Column.context (columns sent)) wanted (Column.rowForm (columns sent) table) =
      .ok (table.fids,
        (table.conveyed (sent.includes .verbose && wanted.includes .verbose)).toList) := by
  -- Without the fourth column, or without a receiver who wants it, the meanings are empty.
  have entries (told : Bool) : Received.entries ⟨table.fids, some (table.toList.map Prod.fst),
      some (table.toList.map (·.2.display)),
      if told then table.toList.map fun entry => Bytes.ofString entry.2.meaning else []⟩ =
        .ok (table.conveyed told).toList := by
    have same : (table.toList.map Prod.fst).length = (table.toList.map (·.2.display)).length := by
      simp
    unfold Received.entries
    dsimp only
    rw [if_neg (not_not_intro same), toList_conveyed]
    cases told with
    | false => exact congrArg Except.ok (Received.labels_nil _)
    | true =>
      rw [if_pos rfl, Received.labels_map]
      exact congrArg Except.ok (List.map_id' _).symm
  unfold decodeRow
  rw [Element.readable_rowForm Column.context_knows (cells_suit table sent) fits]
  change (List.foldlM (Received.add wanted) {} _ >>= _) = _
  unfold columns at fits ⊢
  cases told : sent.includes .verbose with
  | false =>
    rw [told] at fits
    obtain ⟨fids, values, displays, -⟩ : _ ∧ _ ∧ _ ∧ _ := by
      simpa only [Bool.false_eq_true, if_false, minimalColumns, List.forall_mem_cons] using fits
    change ((Received.add wanted {} _ >>= fun received => Received.add wanted received _ >>=
      fun received => Received.add wanted received _ >>= pure) >>= _) = _
    rw [add_fids _ _ _ fids, Program.ok_bind, add_values _ _ _ values, Program.ok_bind,
      add_displays _ _ _ displays]
    exact congrArg (Prod.mk table.fids <$> ·) (entries false)
  | true =>
    rw [told] at fits
    obtain ⟨fids, values, displays, meanings, -⟩ : _ ∧ _ ∧ _ ∧ _ ∧ _ := by
      simpa only [if_true, minimalColumns, List.cons_append, List.nil_append,
        List.forall_mem_cons] using fits
    change ((Received.add wanted {} _ >>= fun received => Received.add wanted received _ >>=
      fun received => Received.add wanted received _ >>= fun received =>
        Received.add wanted received _ >>= pure) >>= _) = _
    rw [add_fids _ _ _ fids, Program.ok_bind, add_values _ _ _ values, Program.ok_bind,
      add_displays _ _ _ displays, Program.ok_bind, add_meanings _ _ _ meanings]
    cases wanted.includes .verbose with
    | false => exact congrArg (Prod.mk table.fids <$> ·) (entries false)
    | true => exact congrArg (Prod.mk table.fids <$> ·) (entries true)

end EnumTable

namespace Dictionary

variable {dictionary : Dictionary} {sent : Verbosity}

/-! ## Sending -/

def enumSource (sent : Verbosity) : Part.Source (EnumTable × Nat) :=
  .ofColumns (EnumTable.columns sent) Prod.fst (fun item => .ofNat item.2)
    (fun _ => Series.openEntry) fun _ => []

def placedTables (dictionary : Dictionary) : List (EnumTable × Nat) :=
  dictionary.tables.toList.zipIdx

def enumElements (dictionary : Dictionary) : List (String × Primitive) :=
  let tags := dictionary.enumTags
  [Summary.kindElement .enums, Summary.idElement dictionary.id,
   (Summary.versionName, .ascii tags.dtVersion), ("RT_Version", .ascii tags.rtVersion),
   ("DT_Version", .ascii tags.dtVersion)]

theorem WellFormed.cursor_lt (wellFormed : dictionary.WellFormed) {first second : Nat}
    (before : first < second) (inside : second < dictionary.tables.size) :
    Int32.ofNat first < Int32.ofNat second := by
  have most := wellFormed.tables_size_le
  rw [Int32.lt_iff_toInt_lt, Int32.toInt_ofNat_of_lt (by omega), Int32.toInt_ofNat_of_lt (by omega)]
  omega

theorem enumEdition_sends (wellFormed : dictionary.WellFormed) (tells : sent.includes .minimal) :
    (dictionary.enumEdition sent).Sends (enumSource sent) dictionary.placedTables
      (Summary.form dictionary.enumElements) (Summary.Fits dictionary.enumElements) where
  hasRows := decide_eq_true (Verbosity.ne_info tells)
  rows := List.mapIdx_eq_zipIdx_map
  ascending := by
    unfold placedTables
    apply List.pairwise_iff_getElem.mpr
    intro first second _ inside before
    change Int32.ofNat (dictionary.tables.toList.zipIdx[first]).2 <
      Int32.ofNat (dictionary.tables.toList.zipIdx[second]).2
    rw [List.getElem_zipIdx, List.getElem_zipIdx, Nat.zero_add, Nat.zero_add]
    exact wellFormed.cursor_lt before (by simpa using inside)
  first item member := by
    have inside : item.2 < dictionary.tables.size := by
      simpa using List.snd_lt_of_mem_zipIdx member
    change Int32.ofNat 0 ≤ Int32.ofNat item.2
    rcases Nat.eq_zero_or_pos item.2 with zero | positive
    · rw [zero]
      exact Int32.le_refl _
    · exact Int32.le_of_lt (wellFormed.cursor_lt positive inside)
  writes item _ plan rows := by
    have hasPayload := Part.hasPayload_of_elementList rows
    exact Part.Source.ofColumns_writes (Part.opens_series hasPayload)
      (EnumTable.columns_filled sent) fun column member =>
        (EnumTable.cells_suit item.1 sent column member).uniform
  summarizes := Summary.write_extends _

/-! ## Taking in -/

/-- The tables at a receiver, as long as the last of them have not arrived, and what the first part has
told. -/
structure TablesArrived (dictionary : Dictionary) (told isFirst : Bool)
    (left : List (EnumTable × Nat)) (state : Dictionary) : Prop where
  tables : state.tables.toList ++ left.map (·.1.conveyed told) =
    dictionary.tables.toList.map (·.conveyed told)
  rtVersion : state.enumTags.rtVersion = if isFirst then "" else dictionary.enumTags.rtVersion
  dtVersion : state.enumTags.dtVersion = if isFirst then "" else dictionary.enumTags.dtVersion
  id : isFirst = false → state.id = dictionary.id

structure SameFields (state after : Dictionary) : Prop where
  definitions : after.definitions = state.definitions
  fieldTags : after.fieldTags = state.fieldTags

/-- The fields of a table as references that give no acronym. -/
def silentReferences (fids : List Int16) : List (Int16 × String) := fids.map fun fid => (fid, "")

theorem fids_silentReferences (fids : List Int16) : (silentReferences fids).map Prod.fst = fids := by
  unfold silentReferences
  rw [List.map_map]
  exact List.map_id' fids

section
variable {told isFirst : Bool} {left : List (EnumTable × Nat)} {state : Dictionary}

theorem SameFields.trans {after last : Dictionary} (first : SameFields state after)
    (second : SameFields after last) : SameFields state last :=
  ⟨second.definitions.trans first.definitions, second.fieldTags.trans first.fieldTags⟩

theorem TablesArrived.fids_nodup (wellFormed : dictionary.WellFormed)
    (arrived : TablesArrived dictionary told isFirst left state) :
    (state.tables.toList.flatMap (·.fids) ++ left.flatMap (·.1.fids)).Nodup := by
  have same := congrArg (List.flatMap EnumTable.fids) arrived.tables
  rw [List.flatMap_append, List.flatMap_map, List.flatMap_map] at same
  exact same ▸ wellFormed.fids_nodup

theorem TablesArrived.accepts {item : EnumTable × Nat} (wellFormed : dictionary.WellFormed)
    (arrived : TablesArrived dictionary told isFirst (item :: left) state)
    (own : state.WellFormed) :
    item.1.fids ≠ [] ∧ state.Accepts (silentReferences item.1.fids) := by
  have distinct := arrived.fids_nodup wellFormed
  rw [List.flatMap_cons, List.nodup_append] at distinct
  -- The fields of the tables that have arrived are not those of the tables that are missing.
  obtain ⟨-, more, apart⟩ := distinct
  have filled : item.1.fids ≠ [] := by
    have member : item.1.conveyed told ∈ dictionary.tables.toList.map (·.conveyed told) := by
      rw [← arrived.tables]
      simp
    obtain ⟨table, inside, same⟩ := List.mem_map.mp member
    have fids : (table.conveyed told).fids = item.1.fids := same ▸ rfl
    exact fids ▸ (wellFormed.referenced table (by simpa using inside)).1
  refine ⟨filled, ?_, ?_, ?_⟩
  · rw [fids_silentReferences]
    exact (List.nodup_append.mp more).1
  · intro reference member linked
    have named : reference.1 ∈ item.1.fids := by
      rw [← fids_silentReferences item.1.fids]
      exact List.mem_map_of_mem member
    obtain ⟨table, inside, own⟩ := own.mem_links_iff.mp linked
    exact apart _ (List.mem_flatMap.mpr ⟨table, by simpa using inside, own⟩) _
      (List.mem_append_left _ named) rfl
  · intro reference member known _
    obtain ⟨fid, -, rfl⟩ := List.mem_map.mp member
    exact .inl rfl

theorem TablesArrived.insert {item : EnumTable × Nat}
    (arrived : TablesArrived dictionary told isFirst (item :: left) state)
    (references : List (Int16 × String)) :
    TablesArrived dictionary told isFirst left
      (state.insertTable references (item.1.conveyed told)) := by
  refine ⟨?_, arrived.rtVersion, arrived.dtVersion, arrived.id⟩
  change (state.tables.push (item.1.conveyed told)).toList ++ _ = _
  rw [← arrived.tables, Array.toList_push, List.append_assoc]
  rfl

theorem silent_insertTable {fids : List Int16} {table : EnumTable} (silent : state.IsSilent) :
    (state.insertTable (silentReferences fids) table).IsSilent := by
  intro fid link linked
  rcases getElem?_link (silentReferences fids) state.tables.size state.links fid with
    ⟨-, kept⟩ | ⟨acronym, member, found⟩
  · exact silent fid link (kept.symm.trans linked)
  · obtain ⟨_, -, same⟩ := List.mem_map.mp member
    cases same
    cases found.symm.trans linked
    rfl

theorem addEnumRows_ok {wanted : Verbosity} (wellFormed : dictionary.WellFormed)
    {taken : List (EnumTable × Nat)} (fits : ∀ item ∈ taken, (enumSource sent).RowFits item)
    (arrived : TablesArrived dictionary (sent.includes .verbose && wanted.includes .verbose) isFirst
      (taken ++ left) state)
    (own : state.WellFormed) (silent : state.IsSilent) (count : Nat) :
    ∃ after, addEnumRows (Column.context (EnumTable.columns sent)) wanted count
        (taken.map fun item => .container .elementList ((enumSource sent).form item)) state =
          .ok (count + taken.length) after ∧
      TablesArrived dictionary (sent.includes .verbose && wanted.includes .verbose) isFirst left after ∧
      SameFields state after ∧ after.IsSilent := by
  -- Every row is the first one that is still missing when it is read.
  induction taken generalizing state count with
  | nil => exact ⟨state, rfl, arrived, ⟨rfl, rfl⟩, silent⟩
  | cons item rest ih =>
    have row := EnumTable.decodeRow_rowForm item.1 wanted (fits item List.mem_cons_self).1
    obtain ⟨filled, accepts⟩ := arrived.accepts wellFormed own
    have made : EnumTable.ofList ((silentReferences item.1.fids).map Prod.fst)
        (item.1.conveyed (sent.includes .verbose && wanted.includes .verbose)).toList =
          .ok (item.1.conveyed (sent.includes .verbose && wanted.includes .verbose)) := by
      rw [fids_silentReferences]
      exact EnumTable.ofList_toList (item.1.conveyed _) filled
    have added := addTable_ok made accepts
    obtain ⟨after, received, done, same, still⟩ := ih
      (fun other member => fits other (List.mem_cons_of_mem _ member)) (arrived.insert _)
      (insertTable_wellFormed own made accepts) (silent_insertTable silent) (count + 1)
    refine ⟨after, ?_, done, ⟨same.definitions, same.fieldTags⟩, still⟩
    rw [List.length_cons, Nat.add_comm rest.length, ← Nat.add_assoc, ← received]
    change (Summary.lift (EnumTable.decodeRow _ wanted (Column.rowForm _ item.1)) >>= _) state = _
    rw [row, Program.bind_ok (Summary.lift_ok _ _)]
    exact Program.bind_ok added

theorem applyEnumSummary_ok (id : state.id = 0 ∨ state.id = dictionary.id) :
    (dictionary.enumElements.map Summary.entry).forM applyEnumSummary state =
      .ok () { state with
        id := dictionary.id
        enumTags := { state.enumTags with
          rtVersion := setOnce state.enumTags.rtVersion dictionary.enumTags.rtVersion
          dtVersion := setOnce state.enumTags.dtVersion dictionary.enumTags.dtVersion } } := by
  have kind : applyEnumSummary (Summary.entry (Summary.kindElement .enums)) state =
      .ok () state := by
    unfold applyEnumSummary
    rw [Summary.name_entry]
    exact Summary.checkKind_ok .enums state
  have own : applyEnumSummary (Summary.entry (Summary.idElement dictionary.id)) state =
      .ok () { state with id := dictionary.id } := by
    unfold applyEnumSummary
    rw [Summary.name_entry]
    exact (Summary.id_bind _ fun id => checkId id true).trans (checkId_ok id)
  have version (text : String) (state : Dictionary) :
      applyEnumSummary (Summary.entry (Summary.versionName, .ascii text)) state = .ok () state := by
    unfold applyEnumSummary
    rw [Summary.name_entry]
    rfl
  have rtVersion (text : String) (state : Dictionary) :
      applyEnumSummary (Summary.entry ("RT_Version", .ascii text)) state =
        .ok () { state with enumTags := { state.enumTags with
          rtVersion := setOnce state.enumTags.rtVersion text } } := by
    unfold applyEnumSummary
    rw [Summary.name_entry]
    exact Summary.text_bind _ _ _
  have dtVersion (text : String) (state : Dictionary) :
      applyEnumSummary (Summary.entry ("DT_Version", .ascii text)) state =
        .ok () { state with enumTags := { state.enumTags with
          dtVersion := setOnce state.enumTags.dtVersion text } } := by
    unfold applyEnumSummary
    rw [Summary.name_entry]
    exact Summary.text_bind _ _ _
  change (applyEnumSummary _ >>= fun _ => applyEnumSummary _ >>= fun _ => applyEnumSummary _ >>=
    fun _ => applyEnumSummary _ >>= fun _ => applyEnumSummary _ >>= fun _ => pure ()) state = _
  rw [Program.bind_ok kind, Program.bind_ok own, Program.bind_ok (version _ _),
    Program.bind_ok (rtVersion _ _), Program.bind_ok (dtVersion _ _)]
  rfl

theorem enumElements_plain : ∀ element ∈ dictionary.enumElements, element.2.isPlain := by
  simp [enumElements, Summary.kindElement, Summary.idElement, Primitive.ascii, Primitive.isPlain]

/-- A part makes the tables arrive that it has taken. -/
theorem decodeEnums_ok {wanted : Verbosity} {definition : Bytes}
    {items taken : List (EnumTable × Nat)} {part : Part} (wellFormed : dictionary.WellFormed)
    (summarized : Summary.Fits dictionary.enumElements)
    (defined : Column.encodedDefinition (EnumTable.columns sent) = .ok definition)
    (takes : Part.Takes (enumSource sent) ((dictionary.enumEdition sent).partPlan definition isFirst)
      (if isFirst then Summary.form dictionary.enumElements else []) items part taken left)
    (arrived : TablesArrived dictionary (sent.includes .verbose && wanted.includes .verbose) isFirst
      items state)
    (agrees : Agrees dictionary state) :
    ∃ after, decodeEnums wanted part.bytes state = .ok taken.length after ∧
      TablesArrived dictionary (sent.includes .verbose && wanted.includes .verbose) false left after ∧
      SameFields state after ∧ after.IsSilent := by
  -- The summary comes first and changes neither tables nor definitions.
  obtain ⟨middle, applied, begun, own, silent, kept⟩ : ∃ middle,
      (if isFirst then (dictionary.enumElements.map Summary.entry).forM applyEnumSummary
        else pure ()) state = .ok () middle ∧
      TablesArrived dictionary (sent.includes .verbose && wanted.includes .verbose) false items
        middle ∧ middle.WellFormed ∧ middle.IsSilent ∧ SameFields state middle := by
    cases isFirst with
    | false => exact ⟨state, rfl, arrived, agrees.wellFormed, agrees.silent, rfl, rfl⟩
    | true =>
      refine ⟨_, applyEnumSummary_ok agrees.id, ?_, ?_, agrees.silent, rfl, rfl⟩
      · refine ⟨arrived.tables, ?_, ?_, fun _ => rfl⟩
        · change setOnce state.enumTags.rtVersion _ = _
          rw [arrived.rtVersion]
          rfl
        · change setOnce state.enumTags.dtVersion _ = _
          rw [arrived.dtVersion]
          rfl
      · exact agrees.wellFormed.of_ok (forM_agree wellFormed_invariant.updates.alike.applyEnumSummary).keeps
          (applyEnumSummary_ok agrees.id)
  rw [takes.split] at begun
  obtain ⟨after, added, done, same, still⟩ :=
    addEnumRows_ok wellFormed takes.rows begun own silent 0
  refine ⟨after, ?_, done, kept.trans same, still⟩
  rw [Nat.zero_add] at added
  rw [← added]
  exact Edition.takeIn_ok (dictionary.enumEdition sent) Series.Content.header applyEnumSummary
    (fun context series => addEnumRows context wanted 0 series.entries) defined
    (EnumTable.columns_declarable sent) enumElements_plain summarized
    (Edition.series_of_takes takes fun _ => rfl) rfl applied

end

theorem Agrees.after_enums {told : Bool} {left : List (EnumTable × Nat)} {state after : Dictionary}
    {wanted : Verbosity} {part : Bytes} {count : Nat} (agrees : Agrees dictionary state)
    (decoded : decodeEnums wanted part state = .ok count after)
    (arrived : TablesArrived dictionary told false left after) (silent : after.IsSilent) :
    Agrees dictionary after where
  id := .inr (arrived.id rfl)
  silent
  wellFormed := agrees.wellFormed.of_ok (wellFormed_invariant.updates.alike.decodeEnums wanted part).keeps decoded

theorem tablesArrived_empty (dictionary : Dictionary) (told : Bool) :
    TablesArrived dictionary told true dictionary.placedTables empty := by
  refine ⟨?_, rfl, rfl, fun impossible => nomatch impossible⟩
  change dictionary.tables.toList.zipIdx.map ((·.conveyed told) ∘ Prod.fst) = _
  rw [← List.map_map, List.zipIdx_map_fst]

theorem TablesArrived.all {told : Bool} {state : Dictionary}
    (arrived : TablesArrived dictionary told false [] state) :
    state.tables = dictionary.tables.map (·.conveyed told) := by
  apply Array.toList_inj.mp
  rw [Array.toList_map, ← arrived.tables, List.map_nil, List.append_nil]

theorem TablesArrived.tableOf? {told : Bool} {state : Dictionary} (wellFormed : dictionary.WellFormed)
    (own : state.WellFormed) (arrived : TablesArrived dictionary told false [] state) (fid : Int16) :
    state.tableOf? fid = (dictionary.tableOf? fid).map (·.conveyed told) := by
  apply Option.ext
  intro table
  -- On both sides it is the one table that names the field.
  rw [own.tableOf?_eq_some_iff, Option.map_eq_some_iff, arrived.all, Array.mem_map]
  constructor
  · rintro ⟨⟨other, member, rfl⟩, named⟩
    exact ⟨other, wellFormed.tableOf?_eq_some_iff.mpr ⟨member, named⟩, rfl⟩
  · rintro ⟨other, found, rfl⟩
    obtain ⟨member, named⟩ := wellFormed.tableOf?_eq_some_iff.mp found
    exact ⟨⟨other, member, rfl⟩, named⟩

theorem TablesArrived.enumLabel? {told : Bool} {state : Dictionary}
    (wellFormed : dictionary.WellFormed) (own : state.WellFormed)
    (arrived : TablesArrived dictionary told false [] state) (fid : Int16) (value : UInt16) :
    state.enumLabel? fid value = (dictionary.enumLabel? fid value).map (·.conveyed told) := by
  unfold Dictionary.enumLabel?
  rw [arrived.tableOf? wellFormed own, Option.bind_map, Option.map_bind]
  congr 1
  funext table
  exact table.get?_conveyed told value

/-- Tables arrive in their order, whatever sizes the parts have that carry them, with their meanings if
sender and receiver agree to tell them. -/
theorem receive_enums (wanted : Verbosity) (reachable : Reachable dictionary)
    (tells : sent.includes .minimal) {capacities : List Nat} {parts : List Part}
    (delivers : (Publication.ofDictionary dictionary .enums sent).Delivers capacities parts) :
    ∃ received, receive (decodeEnums wanted) parts empty = .ok dictionary.tables.size received ∧
      received.tables =
        dictionary.tables.map (·.conveyed (sent.includes .verbose && wanted.includes .verbose)) ∧
      received.enumTags.rtVersion = dictionary.enumTags.rtVersion ∧
      received.enumTags.dtVersion = dictionary.enumTags.dtVersion ∧
      received.id = dictionary.id ∧
      ∀ fid value, received.enumLabel? fid value = (dictionary.enumLabel? fid value).map
        (·.conveyed (sent.includes .verbose && wanted.includes .verbose)) := by
  have wellFormed := reachable.wellFormed
  obtain ⟨definition, defined, summarized, conveys⟩ :=
    Edition.delivers_conveys (enumEdition_sends wellFormed tells) delivers
  obtain ⟨received, decoded, arrived, agrees⟩ := Edition.Conveys.receive_ok
    (fun isFirst left state =>
      TablesArrived dictionary (sent.includes .verbose && wanted.includes .verbose) isFirst left state ∧
        Agrees dictionary state)
    (fun takes ⟨arrived, agrees⟩ => by
      obtain ⟨after, decoded, next, -, silent⟩ :=
        decodeEnums_ok wellFormed summarized defined takes arrived agrees
      exact ⟨after, decoded, next, agrees.after_enums decoded next silent⟩)
    conveys ⟨tablesArrived_empty dictionary _, agrees_empty _⟩
  have all : dictionary.placedTables.length = dictionary.tables.size := by simp [placedTables]
  exact ⟨received, all ▸ decoded, arrived.all, arrived.rtVersion, arrived.dtVersion, arrived.id rfl,
    arrived.enumLabel? wellFormed agrees.wellFormed⟩

/-- Two tables, one of which is empty; a value in the other one has an empty label. -/
def venues : Dictionary :=
  let labels : List (UInt16 × EnumLabel) := [(0, ⟨[], ""⟩), (2, ⟨[0x41], "A"⟩)]
  Call.run (Call.run empty (.addTable [(22, "BID"), (30, "")] labels)) (.addTable [(-3, "")] [])

theorem venues_reachable : Reachable venues := by
  unfold venues
  exact .call _ (.call _ .empty)

/-- In two parts, which tell all. -/
theorem receive_enums_venues :
    let parts := (Publication.ofDictionary venues .enums .verbose).delivered [150, 150]
    parts.length = 2 ∧ ∃ received, receive (decodeEnums .verbose) parts empty = .ok 2 received ∧
      received.tables = venues.tables.map (·.conveyed true) ∧
      received.enumLabel? 30 2 = some ⟨[0x41], "A"⟩ := by
  obtain ⟨completes, two⟩ :
      (Publication.ofDictionary venues .enums .verbose).Completes [150, 150] ∧
      ((Publication.ofDictionary venues .enums .verbose).delivered [150, 150]).length = 2 := by
    decide +kernel
  obtain ⟨received, decoded, same, -, -, -, labels⟩ :=
    receive_enums .verbose venues_reachable rfl completes.delivers
  have label : venues.enumLabel? 30 2 = some ⟨[0x41], "A"⟩ := by decide +kernel
  exact ⟨two, received, decoded, same, by rw [labels, label]; rfl⟩

end Dictionary

end MarketWire
