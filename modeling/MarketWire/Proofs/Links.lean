import MarketWire.Proofs.Dictionaries

/-! Links between fields and tables.

Definitions stand under their own identifiers, and a field is linked to a table exactly when the table
names it. So no two tables name the same field, which bounds their number.
-/

set_option autoImplicit false

namespace MarketWire

namespace EnumTable

theorem fids_of_ofList {fids : List Int16} {values : List (UInt16 × EnumLabel)} {table : EnumTable}
    (h : ofList fids values = .ok table) : table.fids = fids ∧ fids ≠ [] := by
  unfold ofList at h
  by_cases empty : fids.isEmpty
  · rw [if_pos empty] at h
    cases h
  · rw [if_neg empty] at h
    refine ⟨?_, fun same => empty (by rw [same]; rfl)⟩
    cases labelled : addLabels ∅ values with
    | error error =>
      rw [labelled] at h
      cases h
    | ok labels =>
      rw [labelled] at h
      cases h
      rfl

end EnumTable

namespace Dictionary

/-- Definitions stand under their identifiers, and tables and links tell of the same fields. -/
structure WellFormed (dictionary : Dictionary) : Prop where
  defined : ∀ fid field, dictionary.get? fid = some field →
    field.fid = fid ∧ fid ≠ 0 ∧ field.wireType ≠ .unknown
  linked : ∀ fid position,
    (∃ link : EnumLink, dictionary.links[fid]? = some link ∧ link.table = position) ↔
      ∃ table : EnumTable, dictionary.tables[position]? = some table ∧ fid ∈ table.fids
  referenced : ∀ table ∈ dictionary.tables, table.fids ≠ [] ∧ table.fids.Nodup

theorem getElem?_link (references : List (Int16 × String)) (index : Nat)
    (links : Std.ExtTreeMap Int16 EnumLink) (fid : Int16) :
    let linked := references.foldl
      (fun links (fid, acronym) => links.insert fid ⟨acronym, index⟩) links
    (fid ∉ references.map Prod.fst ∧ linked[fid]? = links[fid]?) ∨
      ∃ acronym, (fid, acronym) ∈ references ∧ linked[fid]? = some (EnumLink.mk acronym index) := by
  induction references generalizing links with
  | nil => exact .inl ⟨List.not_mem_nil, rfl⟩
  | cons reference rest ih =>
    obtain ⟨first, acronym⟩ := reference
    rcases ih (links.insert first ⟨acronym, index⟩) with ⟨absent, kept⟩ | ⟨own, member, found⟩
    · by_cases same : first = fid
      · refine .inr ⟨acronym, same ▸ List.mem_cons_self, kept.trans ?_⟩
        rw [same, Std.ExtTreeMap.getElem?_insert_self]
      · refine .inl ⟨?_, kept.trans ?_⟩
        · rintro (_ | ⟨_, member⟩)
          · exact same rfl
          · exact absent member
        · rw [Std.ExtTreeMap.getElem?_insert, if_neg]
          rwa [Std.LawfulEqCmp.compare_eq_iff_eq]
    · exact .inr ⟨own, List.mem_cons_of_mem _ member, found⟩

theorem insertTable_wellFormed {dictionary : Dictionary} {references : List (Int16 × String)}
    {values : List (UInt16 × EnumLabel)} {table : EnumTable} (wellFormed : dictionary.WellFormed)
    (made : EnumTable.ofList (references.map Prod.fst) values = .ok table)
    (accepts : dictionary.Accepts references) :
    (dictionary.insertTable references table).WellFormed := by
  obtain ⟨fids, filled⟩ := EnumTable.fids_of_ofList made
  refine ⟨wellFormed.defined, fun fid position => ?_, ?_⟩
  · change (∃ link, (references.foldl _ dictionary.links)[fid]? = some link ∧ _) ↔
      ∃ other, (dictionary.tables.push table)[position]? = some other ∧ _
    have before := wellFormed.linked fid position
    have last : (∃ other, (dictionary.tables.push table)[dictionary.tables.size]? = some other ∧
        fid ∈ other.fids) ↔ fid ∈ references.map Prod.fst := by simp [fids]
    have others (different : position ≠ dictionary.tables.size) :
        (dictionary.tables.push table)[position]? = dictionary.tables[position]? := by
      simp [Array.getElem?_push, different]
    -- Nothing changes but the links of the fields of the new table, and its position.
    rcases getElem?_link references dictionary.tables.size dictionary.links fid with
      ⟨absent, kept⟩ | ⟨acronym, member, found⟩
    · rw [kept]
      by_cases behind : position = dictionary.tables.size
      · subst behind
        rw [last, before]
        simp [absent]
      · rw [others behind, before]
    · rw [found]
      by_cases behind : position = dictionary.tables.size
      · subst behind
        rw [last]
        simp only [Option.some.injEq, exists_eq_left', true_iff]
        exact List.mem_map.mpr ⟨_, member, rfl⟩
      · rw [others behind, ← before]
        have unlinked : dictionary.links[fid]? = none := by
          have missing := accepts.unlinked _ member
          rwa [Std.ExtTreeMap.mem_iff_isSome_getElem?, Option.not_isSome_iff_eq_none] at missing
        simp [unlinked, Ne.symm behind]
  · intro other member
    rcases Array.mem_push.mp member with earlier | rfl
    · exact wellFormed.referenced other earlier
    · rw [fids]
      exact ⟨filled, accepts.distinct⟩

theorem wellFormed_invariant : Invariant WellFormed where
  empty := ⟨by simp [empty, get?], by simp [empty], by simp [empty]⟩
  names wellFormed _ := ⟨wellFormed.defined, wellFormed.linked, wellFormed.referenced⟩
  field {dictionary field} wellFormed admits := by
    refine ⟨fun fid other found => ?_, wellFormed.linked, wellFormed.referenced⟩
    rw [get?_insertField] at found
    split at found
    case isTrue same =>
      cases found
      exact ⟨same, same ▸ admits.fid, admits.wireType⟩
    case isFalse => exact wellFormed.defined fid other found
  table wellFormed made accepts := insertTable_wellFormed wellFormed made accepts
  ripple {dictionary} wellFormed fid target := by
    refine ⟨fun fid' other found => ?_, wellFormed.linked, wellFormed.referenced⟩
    rw [get?_setRipple] at found
    split at found
    · obtain ⟨field, before, rfl⟩ := Option.map_eq_some_iff.mp found
      exact wellFormed.defined fid' field before
    · exact wellFormed.defined fid' other found
  id wellFormed _ := ⟨wellFormed.defined, wellFormed.linked, wellFormed.referenced⟩
  fieldTags wellFormed _ := ⟨wellFormed.defined, wellFormed.linked, wellFormed.referenced⟩
  enumTags wellFormed _ := ⟨wellFormed.defined, wellFormed.linked, wellFormed.referenced⟩

theorem Reachable.wellFormed {dictionary : Dictionary} (reachable : Reachable dictionary) :
    dictionary.WellFormed :=
  reachable.keeps wellFormed_invariant

theorem length_toList (dictionary : Dictionary) : dictionary.toList.length = dictionary.size := by
  unfold toList size
  rw [List.length_map, Std.ExtTreeMap.length_toList]

namespace WellFormed

variable {dictionary : Dictionary} (wellFormed : dictionary.WellFormed)
include wellFormed

theorem mem_toList {field : FieldDefinition} :
    field ∈ dictionary.toList ↔ dictionary.get? field.fid = some field := by
  unfold toList
  rw [List.mem_map]
  constructor
  · rintro ⟨⟨fid, _⟩, member, rfl⟩
    have found := Std.ExtTreeMap.mem_toList_iff_getElem?_eq_some.mp member
    exact (wellFormed.defined fid _ found).1.symm ▸ found
  · intro found
    exact ⟨(field.fid, field), Std.ExtTreeMap.mem_toList_iff_getElem?_eq_some.mpr found, rfl⟩

theorem toList_ascending :
    dictionary.toList.Pairwise (·.fid < ·.fid) := by
  have keys (entry : Int16 × FieldDefinition) (member : entry ∈ dictionary.definitions.toList) :
      entry.2.fid = entry.1 :=
    (wellFormed.defined _ _ (Std.ExtTreeMap.mem_toList_iff_getElem?_eq_some.mp member)).1
  refine List.pairwise_map.mpr (Std.ExtTreeMap.ordered_keys_toList.imp_of_mem ?_)
  intro first second inFirst inSecond before
  rw [keys first inFirst, keys second inSecond]
  exact Std.compare_eq_lt.mp before

theorem toList_nodup : (dictionary.toList.map (·.fid)).Nodup := by
  refine List.pairwise_map.mpr (wellFormed.toList_ascending.imp fun before same => ?_)
  exact Int16.lt_irrefl (same ▸ before)

theorem map_fid_toList : dictionary.toList.map (·.fid) = dictionary.definitions.keys := by
  rw [← Std.ExtTreeMap.map_fst_toList_eq_keys]
  unfold toList
  rw [List.map_map]
  refine List.map_congr_left fun entry member => ?_
  exact (wellFormed.defined _ _ (Std.ExtTreeMap.mem_toList_iff_getElem?_eq_some.mp member)).1

theorem minFid?_toList : dictionary.minFid? = dictionary.toList.head?.map (·.fid) := by
  rw [← List.head?_map, wellFormed.map_fid_toList]
  exact Std.ExtTreeMap.minKey?_eq_head?_keys

theorem maxFid?_toList : dictionary.maxFid? = dictionary.toList.getLast?.map (·.fid) := by
  rw [← List.getLast?_map, wellFormed.map_fid_toList]
  exact Std.ExtTreeMap.maxKey?_eq_getLast?_keys

/-- The table of a field is the one that names it. -/
theorem tableOf?_eq_some_iff {fid : Int16} {table : EnumTable} :
    dictionary.tableOf? fid = some table ↔ table ∈ dictionary.tables ∧ fid ∈ table.fids := by
  unfold tableOf?
  rw [Option.bind_eq_some_iff, Array.mem_iff_getElem?]
  constructor
  · rintro ⟨link, linked, found⟩
    obtain ⟨other, same, named⟩ := (wellFormed.linked fid link.table).mp ⟨link, linked, rfl⟩
    rw [found] at same
    cases same
    exact ⟨⟨_, found⟩, named⟩
  · rintro ⟨⟨position, found⟩, named⟩
    obtain ⟨link, linked, rfl⟩ := (wellFormed.linked fid position).mpr ⟨table, found, named⟩
    exact ⟨link, linked, found⟩

theorem mem_links_iff {fid : Int16} :
    fid ∈ dictionary.links ↔ ∃ table ∈ dictionary.tables, fid ∈ table.fids := by
  rw [Std.ExtTreeMap.mem_iff_isSome_getElem?, Option.isSome_iff_exists]
  constructor
  · rintro ⟨link, linked⟩
    obtain ⟨table, found, named⟩ := (wellFormed.linked fid link.table).mp ⟨link, linked, rfl⟩
    exact ⟨table, Array.mem_iff_getElem?.mpr ⟨_, found⟩, named⟩
  · rintro ⟨table, member, named⟩
    obtain ⟨position, found⟩ := Array.mem_iff_getElem?.mp member
    obtain ⟨link, linked, -⟩ := (wellFormed.linked fid position).mpr ⟨table, found, named⟩
    exact ⟨link, linked⟩

theorem fids_nodup : (dictionary.tables.toList.flatMap (·.fids)).Nodup := by
  refine List.pairwise_flatMap.mpr ⟨?_, List.pairwise_iff_getElem.mpr ?_⟩
  · exact fun table member => (wellFormed.referenced table (by simpa using member)).2
  · rintro first second inFirst inSecond before fid named _ again rfl
    -- A field that two tables name is linked to the positions of both.
    have one : ∃ link, dictionary.links[fid]? = some link ∧ link.table = first :=
      (wellFormed.linked fid first).mpr ⟨_, by simp, named⟩
    have other : ∃ link, dictionary.links[fid]? = some link ∧ link.table = second :=
      (wellFormed.linked fid second).mpr ⟨_, by simp, again⟩
    obtain ⟨link, linked, rfl⟩ := one
    obtain ⟨link', linked', rfl⟩ := other
    rw [linked] at linked'
    cases linked'
    exact Nat.lt_irrefl _ before

theorem tables_size_le : dictionary.tables.size ≤ 0x10000 := by
  -- Each table names a field, no field twice, and a field has 16 bits.
  have distinct : ((dictionary.tables.toList.flatMap (·.fids)).map (·.toBitVec.toNat)).Nodup := by
    refine List.pairwise_map.mpr (wellFormed.fids_nodup.imp fun different same => different ?_)
    exact Int16.toBitVec_inj.mp (BitVec.toNat_inj.mp same)
  have inside : (dictionary.tables.toList.flatMap (·.fids)).map (·.toBitVec.toNat) ⊆
      List.range (0x10000) := by
    intro number member
    obtain ⟨fid, -, rfl⟩ := List.mem_map.mp member
    exact List.mem_range.mpr fid.toBitVec.isLt
  have few := distinct.length_le_of_subset inside
  rw [List.length_map, List.length_range] at few
  have filled (tables : List EnumTable) (referenced : ∀ table ∈ tables, table.fids ≠ []) :
      tables.length ≤ (tables.flatMap (·.fids)).length := by
    induction tables with
    | nil => exact Nat.zero_le _
    | cons table rest ih =>
      have positive := List.length_pos_iff.mpr (referenced table List.mem_cons_self)
      have others := ih fun other member => referenced other (List.mem_cons_of_mem _ member)
      rw [List.flatMap_cons, List.length_append, List.length_cons]
      omega
  refine Nat.le_trans ?_ few
  simpa using filled dictionary.tables.toList fun table member =>
    (wellFormed.referenced table (by simpa using member)).1

end WellFormed

/-! ## Receivers -/

def IsSilent (dictionary : Dictionary) : Prop :=
  ∀ (fid : Int16) (link : EnumLink), dictionary.links[fid]? = some link → link.acronym = ""

/-- What holds of a receiver whatever has arrived: it has no id or that of the sender, and no table
gives an acronym. -/
structure Agrees (dictionary state : Dictionary) : Prop where
  id : state.id = 0 ∨ state.id = dictionary.id
  silent : state.IsSilent
  wellFormed : state.WellFormed

theorem agrees_empty (dictionary : Dictionary) : Agrees dictionary empty := by
  refine ⟨.inl rfl, fun fid link linked => ?_, wellFormed_invariant.empty⟩
  have unlinked : empty.links[fid]? = none := Std.ExtTreeMap.getElem?_empty
  rw [unlinked] at linked
  cases linked

theorem WellFormed.of_ok {α : Type} {update : Update α} {state after : Dictionary} {value : α}
    (wellFormed : state.WellFormed) (keeps : Program.Keeps WellFormed update)
    (h : update state = .ok value after) : after.WellFormed :=
  keeps.of_ok wellFormed h

end Dictionary

end MarketWire
