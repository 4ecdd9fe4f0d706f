import MarketWire.Proofs.Layouts

/-! What holds of the layout of every dictionary.

A layout that is given the calls of a dictionary represents it all along, wherever calls fail. All that the layout
keeps beside its slots follows from these: the number of definitions, their least and greatest identifiers, the
tables with their references, and the names.
-/

set_option autoImplicit false

namespace MarketWire

/-! ## Sound layouts -/

namespace FidTable

def definitions (layout : FidTable) : List FidEntry := layout.slots.definitions 0 layout.slots.size

/-- The slots, the tables, the names and what is counted agree with each other. -/
structure Sound (layout : FidTable) : Prop where
  slots : layout.slots.size = 0 ∨ layout.slots.size = 0x10000
  placed : ∀ {position : Nat} {entry}, layout.slots[position]? = some (some entry) →
    entry.field.fid.toInt = position - 0x8000
  reserved : ∀ entry ∈ layout.definitions, entry.field.fid ≠ 0
  count : layout.count = layout.definitions.length
  least : ∀ fid, layout.minFid? = some fid ↔
    (∃ entry ∈ layout.definitions, entry.field.fid = fid) ∧ ∀ entry ∈ layout.definitions, fid ≤ entry.field.fid
  greatest : ∀ fid, layout.maxFid? = some fid ↔
    (∃ entry ∈ layout.definitions, entry.field.fid = fid) ∧ ∀ entry ∈ layout.definitions, entry.field.fid ≤ fid
  none : layout.definitions = [] → layout.minFid? = none ∧ layout.maxFid? = none
  entries : layout.entries = layout.definitions
  ascending : layout.entries.Pairwise (·.field.fid < ·.field.fid)
  placeholder : ∀ {fid entry}, layout.slots.held? fid = some entry → entry.isDefinition = false →
    entry.table?.isSome
  /-- A field refers to the table that names it and to no other one. -/
  refers : ∀ {fid entry}, layout.slots.held? fid = some entry → ∀ table,
    entry.table? = some table ↔ table ∈ layout.tables ∧ fid ∈ table.fids
  named : ∀ table ∈ layout.tables, ∀ fid ∈ table.fids, ∃ entry, layout.slots.held? fid = some entry
  distinct : (layout.tables.toList.flatMap (·.fids)).Nodup
  keys : ∀ {names}, layout.names = some names → ∀ acronym,
    acronym ∈ names ↔ ∃ entry ∈ layout.definitions, entry.field.acronym = acronym
  leads : ∀ {names}, layout.names = some names → ∀ {acronym fid}, names[acronym]? = some fid →
    ∃ entry ∈ layout.definitions, entry.field.fid = fid ∧ entry.field.acronym = acronym

namespace Represents

variable {layout : FidTable} {dictionary : Dictionary} (represents : layout.Represents dictionary)
include represents

theorem mem_definitions (wellFormed : dictionary.WellFormed) {entry : FidEntry} :
    entry ∈ layout.definitions ↔ layout.slots.held? entry.field.fid = some entry ∧ entry.isDefinition := by
  unfold FidTable.definitions
  rw [FidSlots.mem_definitions represents.shaped (represents.placed wellFormed)]
  constructor
  · exact fun ⟨found, isDefinition, _⟩ => ⟨found, isDefinition⟩
  · rintro ⟨found, isDefinition⟩
    have inside := (Array.getElem?_eq_some_iff.mp (FidSlots.held?_eq_some_iff.mp found)).1
    exact ⟨found, isDefinition, Nat.zero_le _, inside⟩

theorem defined_iff (wellFormed : dictionary.WellFormed) {fid : Int16} {field : FieldDefinition} :
    dictionary.get? fid = some field ↔ ∃ entry ∈ layout.definitions, entry.field.fid = fid ∧ entry.field = field := by
  constructor
  · intro defined
    obtain ⟨rfl, -⟩ := wellFormed.defined fid field defined
    refine ⟨⟨field, dictionary.tableOf? field.fid⟩, (represents.mem_definitions wellFormed).mpr ?_, rfl, rfl⟩
    exact (represents.held?_iff wellFormed).mpr ⟨field, defined, rfl⟩
  · rintro ⟨entry, member, rfl, rfl⟩
    obtain ⟨field, defined, same⟩ :=
      (represents.held?_iff wellFormed).mp ((represents.mem_definitions wellFormed).mp member)
    rw [defined, same]

theorem mem_definitions_iff (wellFormed : dictionary.WellFormed) {fid : Int16} :
    fid ∈ dictionary.definitions ↔ ∃ entry ∈ layout.definitions, entry.field.fid = fid := by
  rw [Std.ExtTreeMap.mem_iff_isSome_getElem?, Option.isSome_iff_exists]
  constructor
  · rintro ⟨field, defined⟩
    obtain ⟨entry, member, same, -⟩ := (represents.defined_iff wellFormed).mp defined
    exact ⟨entry, member, same⟩
  · rintro ⟨entry, member, same⟩
    exact ⟨_, (represents.defined_iff wellFormed).mpr ⟨entry, member, same, rfl⟩⟩

theorem entries_eq_definitions (wellFormed : dictionary.WellFormed) : layout.entries = layout.definitions := by
  refine FidSlots.eq_of_ascending (fun entry : FidEntry => entry.field.fid)
    (represents.entries_ascending wellFormed)
    (FidSlots.definitions_ascending represents.shaped (represents.placed wellFormed) _ _) fun entry => ?_
  rw [represents.mem_entries wellFormed, represents.mem_definitions wellFormed]

theorem minFid?_eq_some_iff (wellFormed : dictionary.WellFormed) {fid : Int16} : layout.minFid? = some fid ↔
    (∃ entry ∈ layout.definitions, entry.field.fid = fid) ∧ ∀ entry ∈ layout.definitions, fid ≤ entry.field.fid := by
  rw [represents.minFid?]
  refine Std.ExtTreeMap.minKey?_eq_some_iff_mem_and_forall.trans
    (and_congr (represents.mem_definitions_iff wellFormed) ?_)
  simp only [represents.mem_definitions_iff wellFormed, Std.isLE_compare]
  exact ⟨fun below entry member => below _ ⟨entry, member, rfl⟩,
    fun below _ ⟨entry, member, same⟩ => same ▸ below entry member⟩

theorem maxFid?_eq_some_iff (wellFormed : dictionary.WellFormed) {fid : Int16} : layout.maxFid? = some fid ↔
    (∃ entry ∈ layout.definitions, entry.field.fid = fid) ∧ ∀ entry ∈ layout.definitions, entry.field.fid ≤ fid := by
  rw [represents.maxFid?]
  refine Std.ExtTreeMap.maxKey?_eq_some_iff_mem_and_forall.trans
    (and_congr (represents.mem_definitions_iff wellFormed) ?_)
  simp only [represents.mem_definitions_iff wellFormed, Std.isLE_compare]
  exact ⟨fun above entry member => above _ ⟨entry, member, rfl⟩,
    fun above _ ⟨entry, member, same⟩ => same ▸ above entry member⟩

theorem table?_of_placeholder (wellFormed : dictionary.WellFormed) {fid : Int16} {entry : FidEntry}
    (found : layout.slots.held? fid = some entry) (waits : entry.isDefinition = false) : entry.table?.isSome := by
  rw [represents.entries] at found
  cases defined : dictionary.get? fid with
  | some field =>
    cases (Dictionary.entryOf?_of_get? defined).symm.trans found
    exact absurd waits (ne_true_of_eq_false · (decide_eq_true (wellFormed.defined fid field defined).2.2))
  | none =>
    cases linked : dictionary.links[fid]? with
    | some link =>
      obtain ⟨table, -, same⟩ := wellFormed.exists_tableOf? linked
      rw [Dictionary.table?_of_entryOf? found, same]
      rfl
    | none => cases (Dictionary.entryOf?_of_unknown defined linked).symm.trans found

theorem exists_entry_of_mem_fids (wellFormed : dictionary.WellFormed) {table : EnumTable} {fid : Int16}
    (member : table ∈ layout.tables) (named : fid ∈ table.fids) : ∃ entry, layout.slots.held? fid = some entry := by
  have linked : fid ∈ dictionary.links := wellFormed.mem_links_iff.mpr ⟨table, represents.tables ▸ member, named⟩
  rw [Std.ExtTreeMap.mem_iff_isSome_getElem?, Option.isSome_iff_exists] at linked
  obtain ⟨link, linked⟩ := linked
  rw [represents.entries]
  cases defined : dictionary.get? fid with
  | some field => exact ⟨_, Dictionary.entryOf?_of_get? defined⟩
  | none => exact ⟨_, Dictionary.entryOf?_of_link defined linked⟩

theorem mem_names_iff (wellFormed : dictionary.WellFormed) {names : Std.ExtTreeMap String Int16}
    (named : dictionary.NamedBy names) {acronym : String} :
    acronym ∈ names ↔ ∃ entry ∈ layout.definitions, entry.field.acronym = acronym := by
  constructor
  · intro member
    rw [Std.ExtTreeMap.mem_iff_isSome_getElem?, Option.isSome_iff_exists] at member
    obtain ⟨fid, found⟩ := member
    obtain ⟨field, defined, same⟩ := named.leads found
    obtain ⟨entry, member, -, rfl⟩ := (represents.defined_iff wellFormed).mp defined
    exact ⟨entry, member, same⟩
  · rintro ⟨entry, member, rfl⟩
    exact named.covers ((represents.defined_iff wellFormed).mpr ⟨entry, member, rfl, rfl⟩)

theorem sound (wellFormed : dictionary.WellFormed) (indexed : dictionary.IsIndexed) : layout.Sound where
  slots := represents.shaped
  placed {position entry} found := by
    rw [FidSlots.toInt_position,
      FidSlots.position_of_getElem? represents.shaped (represents.placed wellFormed) found]
  reserved entry member :=
    (wellFormed.defined _ _ ((represents.defined_iff wellFormed).mpr ⟨entry, member, rfl, rfl⟩)).2.1
  count := by
    have size : dictionary.toList.length = dictionary.size := by
      rw [Dictionary.toList, List.length_map]
      exact Std.ExtTreeMap.length_toList
    rw [represents.count, ← size, ← represents.entries_eq wellFormed, List.length_map,
      represents.entries_eq_definitions wellFormed]
  least _ := represents.minFid?_eq_some_iff wellFormed
  greatest _ := represents.maxFid?_eq_some_iff wellFormed
  none empty := by
    have nothing (fid : Int16) : ¬ ∃ entry ∈ layout.definitions, entry.field.fid = fid := by simp [empty]
    exact ⟨Option.eq_none_iff_forall_not_mem.mpr fun fid is =>
        nothing fid ((represents.minFid?_eq_some_iff wellFormed).mp is).1,
      Option.eq_none_iff_forall_not_mem.mpr fun fid is =>
        nothing fid ((represents.maxFid?_eq_some_iff wellFormed).mp is).1⟩
  entries := represents.entries_eq_definitions wellFormed
  ascending := represents.entries_ascending wellFormed
  placeholder found waits := represents.table?_of_placeholder wellFormed found waits
  refers {fid entry} found table := by
    rw [represents.entries] at found
    rw [Dictionary.table?_of_entryOf? found, represents.tables, wellFormed.tableOf?_eq_some_iff]
  named _ member _ named := represents.exists_entry_of_mem_fids wellFormed member named
  distinct := by
    rw [represents.tables]
    exact wellFormed.fids_nodup
  keys kept _ := represents.mem_names_iff wellFormed (indexed (represents.names.symm.trans kept))
  leads {names} kept {acronym fid} found := by
    obtain ⟨field, defined, same⟩ := (indexed (represents.names.symm.trans kept)).leads found
    obtain ⟨entry, member, own, rfl⟩ := (represents.defined_iff wellFormed).mp defined
    exact ⟨entry, member, own, same⟩

theorem size_slots : layout.slots.size = if dictionary.isInitialized then FidSlots.full else 0 := by
  by_cases known : dictionary.isInitialized
  · rw [if_pos known]
    obtain ⟨fid, found⟩ := Dictionary.isInitialized_iff.mp known
    obtain ⟨entry, found⟩ := Option.ne_none_iff_exists'.mp found
    have inside := (Array.getElem?_eq_some_iff.mp
      (FidSlots.held?_eq_some_iff.mp ((represents.entries fid).trans found))).1
    exact represents.shaped.resolve_left (Nat.ne_of_gt (Nat.zero_lt_of_lt inside))
  · rw [if_neg known]
    exact represents.shaped.resolve_right fun full => known (Dictionary.isInitialized_iff.mpr (represents.used full))

theorem unique {other : FidTable} (represents' : other.Represents dictionary) : other = layout := by
  have size : other.slots.size = layout.slots.size := represents'.size_slots.trans represents.size_slots.symm
  have slots : other.slots = layout.slots := by
    refine Array.ext size fun index inside inside' => ?_
    have full : layout.slots.size = FidSlots.full :=
      represents.shaped.resolve_left (Nat.ne_of_gt (Nat.zero_lt_of_lt inside'))
    obtain ⟨fid, rfl⟩ := FidSlots.exists_position (full ▸ inside')
    have same : other.slots.held? fid = layout.slots.held? fid :=
      (represents'.entries fid).trans (represents.entries fid).symm
    unfold FidSlots.held? at same
    rwa [Array.getElem?_eq_getElem inside, Array.getElem?_eq_getElem inside'] at same
  obtain ⟨_, _, _, _, _, _, _, _, _⟩ := layout
  obtain ⟨_, _, _, _, _, _, _, _, _⟩ := other
  obtain rfl := slots
  obtain ⟨-, -, -, rfl, rfl, rfl, rfl, rfl, rfl, rfl, rfl⟩ := represents
  obtain ⟨-, -, -, rfl, rfl, rfl, rfl, rfl, rfl, rfl, rfl⟩ := represents'
  rfl

end Represents

end FidTable

/-! ## Calls -/

namespace FidTable

def Follows (layout : FidTable) (dictionary : Dictionary) : Prop :=
  layout.Represents dictionary ∧ dictionary.WellFormed ∧ dictionary.IsIndexed

-- The operations answer alike on both, and what the dictionary needs for that is one of its invariants.
theorem follows_alike : Dictionary.UpdatesAlike Follows fun _ => True where
  id id adopt := by
    refine Program.agree_of_keeps (Dictionary.isIndexed_invariant.updates.checkId_keeps id adopt) ?_
    exact fun _ _ represents _ => represents.checkId_alike id adopt
  fieldTags {change} kept := by
    refine Program.agree_of_keeps (Dictionary.isIndexed_invariant.updates.setFieldTags_keeps kept) ?_
    exact fun _ _ represents _ => ⟨rfl, { represents with fieldTags := congrArg change represents.fieldTags }⟩
  enumTags {change} kept := by
    refine Program.agree_of_keeps (Dictionary.isIndexed_invariant.updates.setEnumTags_keeps kept) ?_
    exact fun _ _ represents _ => ⟨rfl, { represents with enumTags := congrArg change represents.enumTags }⟩
  field field := by
    refine Program.agree_of_keeps (Dictionary.isIndexed_invariant.updates.addField_gives field).keeps ?_
    exact fun _ _ represents sound => represents.addField_alike sound.1 field
  table references values := by
    refine Program.agree_of_keeps (Dictionary.isIndexed_invariant.updates.addTable_keeps references values) ?_
    exact fun _ _ represents sound => represents.addTable_alike sound.1 references values
  ripples {ripples} new _ _ follows :=
    ⟨follows.1.resolveRipples follows.2.1 follows.2.2 ripples,
      Dictionary.isIndexed_invariant.updates.resolveRipples_keeps new follows.2⟩

theorem Follows.run {layout : FidTable} {dictionary : Dictionary} (follows : layout.Follows dictionary)
    (call : Dictionary.Call) : FidTable.Follows (call.run layout) (call.run dictionary) := by
  by_cases adds : call.adds
  · exact follows_alike.run adds follows
  refine ⟨?_, Dictionary.isIndexed_invariant.run_keeps call follows.2⟩
  cases call with
  | withNames keep => exact follows.1.withNames follows.2.1 keep
  | clear => exact follows.1.clear
  | _ => exact absurd rfl adds

theorem follows_foldl (calls : List Dictionary.Call) :
    FidTable.Follows (calls.foldl Dictionary.Call.run {}) (calls.foldl Dictionary.Call.run .empty) :=
  List.foldl_rel (r := Follows) ⟨represents_empty, Dictionary.isIndexed_invariant.empty⟩
    fun call _ _ _ follows => follows.run call

end FidTable

/-- Whatever calls are made to an empty dictionary laid out in slots, and wherever they fail, its slots, tables, names
and counts agree with each other. It is the one layout of the dictionary to which the same calls lead. -/
theorem Dictionary.Call.layout_sound (calls : List Call) :
    let layout : FidTable := calls.foldl run {}
    let dictionary : Dictionary := calls.foldl run empty
    layout.Sound ∧ layout.Represents dictionary ∧
      (layout.slots.size = if dictionary.isInitialized then 0x10000 else 0) ∧
      ∀ other : FidTable, other.Represents dictionary → other = layout := by
  intro layout dictionary
  obtain ⟨represents, wellFormed, indexed⟩ : layout.Follows dictionary := FidTable.follows_foldl calls
  exact ⟨represents.sound wellFormed indexed, represents, represents.size_slots, fun _ => represents.unique⟩

/-- A table that refers to two fields, of which one is defined later, and then once more. -/
theorem Dictionary.Call.layout_sound_placeholder :
    let table : Call := .addTable [(4, "RDN_EXCHID"), (9, "")] [(1, ⟨[0x41], ""⟩)]
    let field : Call := .addField { fid := 4, acronym := "RDN_EXCHID", wireType := .enum }
    let layout : FidTable := [table, field, field].foldl run {}
    let cleared : FidTable := [table, field, field, .clear].foldl run {}
    layout.Sound ∧ layout.slots.size = 0x10000 ∧ layout.count = 1 ∧
      (layout.slots.held? 9).map (·.isDefinition) = some false ∧
      cleared.Sound ∧ cleared.slots.size = 0 ∧ cleared.count = 0 := by
  intro table field layout cleared
  obtain ⟨sound, represents, size, -⟩ := layout_sound [table, field, field]
  obtain ⟨sound', represents', size', -⟩ := layout_sound [table, field, field, .clear]
  refine ⟨sound, size, ?_, ?_, sound', size', ?_⟩
  · exact represents.count.trans (by decide)
  · exact (congrArg _ (represents.entries 9)).trans (by decide)
  · exact represents'.count.trans (by decide)

end MarketWire
