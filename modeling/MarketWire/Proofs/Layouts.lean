import MarketWire.Proofs.FidTables

/-! Dictionaries and their layouts in slots.

A layout represents a dictionary if its slots hold what the dictionary knows of each field and all that is kept
beside the slots agrees. Each operation leads from a layout of a dictionary to a layout of the changed
dictionary, and gives the same answer for both.
-/

set_option autoImplicit false

namespace MarketWire

namespace Dictionary

def entryOf? (dictionary : Dictionary) (fid : Int16) : Option FidEntry :=
  match dictionary.get? fid with
  | some field => some ⟨field, dictionary.tableOf? fid⟩
  | none => dictionary.links[fid]?.map fun link =>
    ⟨{ fid, acronym := link.acronym, wireType := .unknown }, dictionary.tableOf? fid⟩

section
variable {dictionary : Dictionary} {fid : Int16}

theorem entryOf?_of_get? {field : FieldDefinition} (defined : dictionary.get? fid = some field) :
    dictionary.entryOf? fid = some ⟨field, dictionary.tableOf? fid⟩ := by
  unfold entryOf?
  rw [defined]

theorem entryOf?_of_link {link : EnumLink} (free : dictionary.get? fid = none)
    (linked : dictionary.links[fid]? = some link) :
    dictionary.entryOf? fid =
      some ⟨{ fid, acronym := link.acronym, wireType := .unknown }, dictionary.tableOf? fid⟩ := by
  unfold entryOf?
  rw [free, linked]
  rfl

theorem entryOf?_of_unknown (free : dictionary.get? fid = none) (unlinked : dictionary.links[fid]? = none) :
    dictionary.entryOf? fid = none := by
  unfold entryOf?
  rw [free, unlinked]
  rfl

theorem tableOf?_of_unlinked (unlinked : dictionary.links[fid]? = none) : dictionary.tableOf? fid = none := by
  unfold tableOf?
  rw [unlinked]
  rfl

theorem table?_of_entryOf? {entry : FidEntry} (found : dictionary.entryOf? fid = some entry) :
    entry.table? = dictionary.tableOf? fid := by
  unfold entryOf? at found
  split at found
  · cases found
    rfl
  · obtain ⟨link, -, rfl⟩ := Option.map_eq_some_iff.mp found
    rfl

theorem acronymOf?_eq (dictionary : Dictionary) (fid : Int16) :
    dictionary.acronymOf? fid = (dictionary.entryOf? fid).map (·.field.acronym) := by
  unfold acronymOf? entryOf?
  cases dictionary.get? fid with
  | some field => rfl
  | none =>
    rw [Option.map_map]
    rfl

theorem isInitialized_iff : dictionary.isInitialized ↔ ∃ fid, dictionary.entryOf? fid ≠ none := by
  have isEmpty_iff {β : Type} (entries : Std.ExtTreeMap Int16 β) :
      entries.isEmpty ↔ ∀ fid : Int16, entries[fid]? = none := by
    rw [Std.ExtTreeMap.isEmpty_iff]
    constructor
    · rintro rfl _
      exact Std.ExtTreeMap.getElem?_empty
    · exact fun missing => Std.ExtTreeMap.ext_getElem? fun fid =>
        (missing fid).trans Std.ExtTreeMap.getElem?_empty.symm
  have unknown (fid : Int16) : dictionary.entryOf? fid = none ↔
      dictionary.definitions[fid]? = none ∧ dictionary.links[fid]? = none := by
    unfold entryOf? get?
    cases dictionary.definitions[fid]? <;> simp
  unfold isInitialized
  rw [Bool.or_eq_true, Bool.not_eq_true', Bool.not_eq_true', ← Bool.not_eq_true, ← Bool.not_eq_true,
    isEmpty_iff, isEmpty_iff, ← Classical.not_and_iff_not_or_not, ← forall_and]
  simp only [← unknown]
  exact Classical.not_forall

namespace WellFormed

variable (wellFormed : dictionary.WellFormed)
include wellFormed

theorem fid_of_entryOf? {entry : FidEntry} (found : dictionary.entryOf? fid = some entry) :
    entry.field.fid = fid := by
  unfold entryOf? at found
  split at found
  case h_1 field defined =>
    cases found
    exact (wellFormed.defined fid field defined).1
  case h_2 =>
    obtain ⟨link, -, rfl⟩ := Option.map_eq_some_iff.mp found
    rfl

theorem entryOf?_filter (fid : Int16) :
    (dictionary.entryOf? fid).filter (·.isDefinition) =
      (dictionary.get? fid).map fun field => ⟨field, dictionary.tableOf? fid⟩ := by
  cases defined : dictionary.get? fid with
  | some field =>
    rw [entryOf?_of_get? defined]
    exact if_pos (decide_eq_true (wellFormed.defined fid field defined).2.2)
  | none =>
    cases linked : dictionary.links[fid]? with
    | some link =>
      rw [entryOf?_of_link defined linked]
      rfl
    | none =>
      rw [entryOf?_of_unknown defined linked]
      rfl

theorem exists_tableOf? {link : EnumLink} (linked : dictionary.links[fid]? = some link) :
    ∃ table, dictionary.tables[link.table]? = some table ∧ dictionary.tableOf? fid = some table := by
  obtain ⟨table, found, -⟩ := (wellFormed.linked fid link.table).mp ⟨link, linked, rfl⟩
  refine ⟨table, found, ?_⟩
  unfold tableOf?
  rw [linked]
  exact found

theorem isSome_tableOf? (fid : Int16) : (dictionary.tableOf? fid).isSome ↔ fid ∈ dictionary.links := by
  rw [Std.ExtTreeMap.mem_iff_isSome_getElem?]
  cases linked : dictionary.links[fid]? with
  | some link =>
    obtain ⟨table, -, found⟩ := wellFormed.exists_tableOf? linked
    rw [found]
    exact Iff.rfl
  | none =>
    rw [tableOf?_of_unlinked linked]
    exact Iff.rfl

end WellFormed

/-! ### New definitions -/

theorem entryOf?_insertField (dictionary : Dictionary) (field : FieldDefinition) (fid : Int16) :
    (dictionary.insertField field).entryOf? fid =
      if field.fid = fid then some ⟨field, dictionary.tableOf? field.fid⟩ else dictionary.entryOf? fid := by
  unfold entryOf?
  rw [get?_insertField]
  by_cases same : field.fid = fid
  · rw [if_pos same, if_pos same, same]
    rfl
  · rw [if_neg same, if_neg same]
    rfl

/-! ### New tables -/

theorem WellFormed.entryOf?_insertTable_of_not_mem (wellFormed : dictionary.WellFormed)
    {references : List (Int16 × String)} (table : EnumTable) (absent : fid ∉ references.map Prod.fst) :
    (dictionary.insertTable references table).entryOf? fid = dictionary.entryOf? fid := by
  have kept : (dictionary.insertTable references table).links[fid]? = dictionary.links[fid]? := by
    rcases getElem?_link references dictionary.tables.size dictionary.links fid with ⟨-, kept⟩ | ⟨_, member, -⟩
    · exact kept
    · exact absurd (List.mem_map.mpr ⟨_, member, rfl⟩) absent
  have tableOf : (dictionary.insertTable references table).tableOf? fid = dictionary.tableOf? fid := by
    unfold tableOf?
    rw [kept]
    cases linked : dictionary.links[fid]? with
    | none => rfl
    | some link =>
      obtain ⟨own, found, -⟩ := wellFormed.exists_tableOf? linked
      have inside := (Array.getElem?_eq_some_iff.mp found).1
      exact Array.getElem?_push.trans (if_neg (Nat.ne_of_lt inside))
  unfold entryOf?
  rw [kept, tableOf]
  rfl

theorem Accepts.acronym_eq {references : List (Int16 × String)} (accepts : dictionary.Accepts references)
    {acronym other : String} (member : (fid, acronym) ∈ references) (again : (fid, other) ∈ references) :
    acronym = other := by
  induction references with
  | nil => cases member
  | cons reference rest ih =>
    obtain ⟨different, -, -, others⟩ := accepts_cons.mp accepts
    rcases List.mem_cons.mp member with rfl | later <;> rcases List.mem_cons.mp again with same | later'
    · exact (Prod.mk.inj same).2.symm
    · exact absurd rfl (different (fid, other) later')
    · cases same
      exact absurd rfl (different (fid, acronym) later)
    · exact ih others later later'

theorem entryOf?_insertTable_of_mem {references : List (Int16 × String)} (accepts : dictionary.Accepts references)
    (table : EnumTable) {acronym : String} (member : (fid, acronym) ∈ references) :
    (dictionary.insertTable references table).entryOf? fid =
      some (FidTable.referring table fid acronym (dictionary.entryOf? fid)) := by
  have unlinked : dictionary.links[fid]? = none := by
    have missing := accepts.unlinked _ member
    rwa [Std.ExtTreeMap.mem_iff_isSome_getElem?, Option.not_isSome_iff_eq_none] at missing
  have linked : (dictionary.insertTable references table).links[fid]? =
      some ⟨acronym, dictionary.tables.size⟩ := by
    rcases getElem?_link references dictionary.tables.size dictionary.links fid with
      ⟨absent, -⟩ | ⟨own, again, found⟩
    · exact absurd (List.mem_map.mpr ⟨_, member, rfl⟩) absent
    · rw [accepts.acronym_eq member again]
      exact found
  have tableOf : (dictionary.insertTable references table).tableOf? fid = some table := by
    unfold tableOf?
    rw [linked]
    exact Array.getElem?_push_size
  cases defined : dictionary.get? fid with
  | some field =>
    have defined' : (dictionary.insertTable references table).get? fid = some field := defined
    rw [entryOf?_of_get? defined, entryOf?_of_get? defined', tableOf]
    rfl
  | none =>
    have defined' : (dictionary.insertTable references table).get? fid = none := defined
    rw [entryOf?_of_unknown defined unlinked, entryOf?_of_link defined' linked, tableOf]
    rfl

/-! ### Ripples -/

theorem entryOf?_setRipple (dictionary : Dictionary) (fid target other : Int16) :
    (dictionary.setRipple fid target).entryOf? other =
      match dictionary.get? fid with
      | some field =>
        if fid = other then some ⟨{ field with rippleTo := target }, dictionary.tableOf? fid⟩
        else dictionary.entryOf? other
      | none => dictionary.entryOf? other := by
  unfold entryOf?
  rw [get?_setRipple]
  by_cases same : fid = other
  · subst same
    rw [if_pos rfl]
    cases dictionary.get? fid with
    | some field => exact (if_pos rfl).symm
    | none => rfl
  · rw [if_neg same]
    cases dictionary.get? fid with
    | some field => exact (if_neg same).symm
    | none => rfl

theorem WellFormed.buildNames_setRipple (wellFormed : dictionary.WellFormed) (fid target : Int16) :
    (dictionary.setRipple fid target).buildNames = dictionary.buildNames := by
  have rippled := wellFormed_invariant.ripple wellFormed fid target
  have acronyms : (dictionary.setRipple fid target).toList.map (fun field => (field.fid, field.acronym)) =
      dictionary.toList.map fun field => (field.fid, field.acronym) := by
    refine FidSlots.eq_of_ascending Prod.fst (List.pairwise_map.mpr rippled.toList_ascending)
      (List.pairwise_map.mpr wellFormed.toList_ascending) fun (other, acronym) => ?_
    rw [rippled.mem_acronyms, wellFormed.mem_acronyms, acronym_setRipple]
  have collected (fields : List FieldDefinition) (names : Std.ExtTreeMap String Int16) :
      fields.foldl (fun names field => names.insertIfNew field.acronym field.fid) names =
        (fields.map fun field => (field.fid, field.acronym)).foldl
          (fun names entry => names.insertIfNew entry.2 entry.1) names := by
    rw [List.foldl_map]
  unfold Dictionary.buildNames
  rw [collected, acronyms, ← collected]

end

end Dictionary

namespace FidTable

/-- A layout holds what a dictionary knows. -/
structure Represents (layout : FidTable) (dictionary : Dictionary) : Prop where
  shaped : layout.slots.IsShaped
  /-- There are no slots before there is something to hold. -/
  used : layout.slots.size = FidSlots.full → ∃ fid, dictionary.entryOf? fid ≠ none
  entries : ∀ fid, layout.slots.held? fid = dictionary.entryOf? fid
  tables : layout.tables = dictionary.tables
  names : layout.names = dictionary.names
  minFid? : layout.minFid? = dictionary.minFid?
  maxFid? : layout.maxFid? = dictionary.maxFid?
  count : layout.count = dictionary.size
  id : layout.id = dictionary.id
  fieldTags : layout.fieldTags = dictionary.fieldTags
  enumTags : layout.enumTags = dictionary.enumTags

theorem represents_empty : Represents {} .empty where
  shaped := .inl rfl
  used same := nomatch same
  entries fid := by
    rw [Dictionary.entryOf?_of_unknown Std.ExtTreeMap.getElem?_empty Std.ExtTreeMap.getElem?_empty]
    rfl
  tables := rfl
  names := rfl
  minFid? := Std.ExtTreeMap.minKey?_empty.symm
  maxFid? := Std.ExtTreeMap.maxKey?_empty.symm
  count := rfl
  id := rfl
  fieldTags := rfl
  enumTags := rfl

open Program (Alike)

theorem min_eq (least fid : Int16) : min least fid = if (compare fid least).isLE then fid else least := by
  change (if least ≤ fid then least else fid) = _
  simp only [Std.isLE_compare, Int16.le_iff_toInt_le]
  split <;> split <;> first | rfl | exact Int16.toInt_inj.mp (by omega)

theorem max_eq (greatest fid : Int16) :
    max greatest fid = if (compare greatest fid).isLE then fid else greatest := by
  change (if greatest ≤ fid then fid else greatest) = _
  simp only [Std.isLE_compare]

section
variable {layout : FidTable} {dictionary : Dictionary} (represents : layout.Represents dictionary)
include represents

/-! ## Definitions -/

theorem Represents.insertField {field : FieldDefinition} (free : dictionary.get? field.fid = none) :
    ((layout.put field.fid ⟨field, dictionary.tableOf? field.fid⟩).register field).Represents
      (dictionary.insertField field) := by
  have defined := Dictionary.entryOf?_insertField dictionary field
  exact { represents with
    shaped := .inr (FidSlots.size_put represents.shaped _ _)
    used := fun _ => ⟨field.fid, by rw [defined, if_pos rfl]; exact Option.some_ne_none _⟩
    entries := fun fid => (FidSlots.held?_put represents.shaped _ _ _).trans (by rw [defined, represents.entries])
    names := congrArg (Option.map _) represents.names
    minFid? := by
      change some (layout.minFid?.elim field.fid (min · field.fid)) = (dictionary.definitions.insert _ _).minKey?
      rw [Std.ExtTreeMap.minKey?_insert, represents.minFid?]
      simp only [min_eq]
      rfl
    maxFid? := by
      change some (layout.maxFid?.elim field.fid (max · field.fid)) = (dictionary.definitions.insert _ _).maxKey?
      rw [Std.ExtTreeMap.maxKey?_insert, represents.maxFid?]
      simp only [max_eq]
      rfl
    count := (congrArg (· + 1) represents.count).trans (Dictionary.size_insertField free).symm }

/-- The slots that are made for an entry that is there are the slots that were there. -/
theorem Represents.allocate_eq {fid : Int16} {entry : FidEntry} (found : dictionary.entryOf? fid = some entry) :
    layout.allocate = layout := by
  have same : layout.slots.allocate = layout.slots :=
    FidSlots.allocate_of_held? ((represents.entries fid).trans found)
  rw [allocate, same]

theorem Represents.addField_alike (wellFormed : dictionary.WellFormed) (field : FieldDefinition) :
    Alike Represents (FidTable.addField field layout) (Dictionary.addField field dictionary) := by
  unfold FidTable.addField Dictionary.addField
  rw [Program.get_bind]
  by_cases fid : field.fid = 0
  · rw [if_pos fid, if_pos fid]
    exact ⟨rfl, represents⟩
  by_cases wireType : field.wireType = .unknown
  · rw [if_neg fid, if_neg fid, if_pos wireType, if_pos wireType]
    exact ⟨rfl, represents⟩
  simp only [if_neg fid, if_neg wireType]
  have made : (modify allocate : EStateM DictionaryError FidTable PUnit) layout = .ok ⟨⟩ layout.allocate := rfl
  rw [Program.bind_ok made, Program.get_bind, allocate]
  simp only [FidSlots.held?_allocate, represents.entries]
  rw [← allocate]
  cases defined : dictionary.get? field.fid with
  | some existing =>
    have found := Dictionary.entryOf?_of_get? defined
    have isDefinition : FidEntry.isDefinition ⟨existing, dictionary.tableOf? field.fid⟩ :=
      decide_eq_true (wellFormed.defined _ _ defined).2.2
    rw [represents.allocate_eq found]
    simp only [found, merge, if_pos isDefinition]
    exact ⟨rfl, represents⟩
  | none =>
    have inserted := represents.insertField defined
    cases linked : dictionary.links[field.fid]? with
    | some link =>
      have found := Dictionary.entryOf?_of_link defined linked
      rw [represents.allocate_eq found]
      by_cases disagrees : link.acronym ≠ "" ∧ link.acronym ≠ field.acronym
      · simp only [found, merge, if_pos disagrees]
        exact ⟨rfl, represents⟩
      · simp only [found, merge, if_neg disagrees]
        exact ⟨rfl, inserted⟩
    | none =>
      simp only [Dictionary.entryOf?_of_unknown defined linked, merge]
      rw [Dictionary.tableOf?_of_unlinked linked, put, ← FidSlots.put_allocate represents.shaped] at inserted
      exact ⟨rfl, inserted⟩

/-! ## Tables -/

theorem Represents.referenceError?_eq (wellFormed : dictionary.WellFormed) {references : List (Int16 × String)}
    {seen : List Int16} {before : Std.ExtTreeSet Int16} (same : ∀ fid, fid ∈ seen ↔ fid ∈ before) :
    referenceError? layout.slots seen references = dictionary.referenceError? before references := by
  induction references generalizing seen before with
  | nil => rfl
  | cons reference rest ih =>
    obtain ⟨fid, acronym⟩ := reference
    have later : ∀ other, other ∈ seen ++ [fid] ↔ other ∈ before.insert fid := by
      intro other
      rw [List.mem_append, List.mem_singleton, Std.ExtTreeSet.mem_insert, Std.LawfulEqCmp.compare_eq_iff_eq, same,
        or_comm, eq_comm]
    unfold referenceError? Dictionary.referenceError?
    simp only [same, represents.entries, Dictionary.acronymOf?_eq]
    cases found : dictionary.entryOf? fid with
    | none => simp only [Option.map_none, ih later]
    | some entry =>
      have linked : entry.table?.isSome ↔ fid ∈ dictionary.links := by
        rw [Dictionary.table?_of_entryOf? found]
        exact wellFormed.isSome_tableOf? fid
      simp only [Option.map_some, ih later, linked]

theorem Represents.insertTable (wellFormed : dictionary.WellFormed) {references : List (Int16 × String)}
    {values : List (UInt16 × EnumLabel)} {table : EnumTable}
    (made : EnumTable.ofList (references.map Prod.fst) values = .ok table)
    (accepts : dictionary.Accepts references) :
    Represents { layout with
      slots := references.foldl (refer table) layout.slots
      tables := layout.tables.push table } (dictionary.insertTable references table) := by
  have filled : references ≠ [] := fun empty => (EnumTable.fids_of_ofList made).2 (empty ▸ rfl)
  have entries (fid : Int16) :
      FidSlots.held? (references.foldl (refer table) layout.slots) fid =
        (dictionary.insertTable references table).entryOf? fid := by
    by_cases absent : fid ∉ references.map Prod.fst
    · rw [held?_foldl_refer_of_not_mem represents.shaped table absent, represents.entries,
        wellFormed.entryOf?_insertTable_of_not_mem table absent]
    · obtain ⟨⟨_, acronym⟩, member, rfl⟩ := List.mem_map.mp (Decidable.not_not.mp absent)
      rw [held?_foldl_refer_of_mem represents.shaped table accepts.distinct member, represents.entries,
        Dictionary.entryOf?_insertTable_of_mem accepts table member]
  exact { represents with
    shaped := shaped_foldl_refer represents.shaped table
    used := fun _ => by
      obtain ⟨⟨fid, acronym⟩, rest, rfl⟩ := List.exists_cons_of_ne_nil filled
      refine ⟨fid, ?_⟩
      rw [Dictionary.entryOf?_insertTable_of_mem accepts table List.mem_cons_self]
      exact Option.some_ne_none _
    entries
    tables := congrArg (Array.push · table) represents.tables }

theorem Represents.addTable_alike (wellFormed : dictionary.WellFormed) (references : List (Int16 × String))
    (values : List (UInt16 × EnumLabel)) :
    Alike Represents (FidTable.addTable references values layout)
      (Dictionary.addTable references values dictionary) := by
  unfold FidTable.addTable Dictionary.addTable
  cases made : EnumTable.ofList (references.map Prod.fst) values with
  | error error => exact ⟨rfl, represents⟩
  | ok table =>
    dsimp only
    have nothing : ∀ fid : Int16, fid ∈ [] ↔ fid ∈ (∅ : Std.ExtTreeSet Int16) := by simp
    rw [Program.get_bind, Program.get_bind, represents.referenceError?_eq wellFormed nothing]
    cases refused : dictionary.referenceError? ∅ references with
    | some error => exact ⟨rfl, represents⟩
    | none => exact ⟨rfl, represents.insertTable wellFormed made (Dictionary.accepts_iff.mpr refused)⟩

/-! ## Ids -/

theorem Represents.checkId_alike (id : Int32) (adopt : Bool) :
    Alike Represents (FidTable.checkId id adopt layout) (Dictionary.checkId id adopt dictionary) := by
  unfold FidTable.checkId Dictionary.checkId
  rw [Program.get_bind, Program.get_bind, represents.id]
  by_cases refused : id ≠ 0 ∧ dictionary.id ≠ 0 ∧ id ≠ dictionary.id
  · rw [if_pos refused, if_pos refused]
    exact ⟨rfl, represents⟩
  rw [if_neg refused, if_neg refused]
  by_cases adopted : adopt ∧ id ≠ 0
  · rw [if_pos adopted, if_pos adopted]
    exact ⟨rfl, { represents with id := rfl }⟩
  · rw [if_neg adopted, if_neg adopted]
    exact ⟨rfl, represents⟩

/-! ## Ripples -/

theorem Represents.setRipple (wellFormed : dictionary.WellFormed) (fid target : Int16) :
    (layout.setRipple fid target).Represents (dictionary.setRipple fid target) := by
  have known := Dictionary.entryOf?_setRipple dictionary fid target
  -- Nothing changes but a slot.
  have of_slots {slots : FidSlots} (shaped : slots.IsShaped)
      (used : slots.size = FidSlots.full → ∃ other, (dictionary.setRipple fid target).entryOf? other ≠ none)
      (entries : ∀ other, slots.held? other = (dictionary.setRipple fid target).entryOf? other) :
      Represents { layout with slots } (dictionary.setRipple fid target) :=
    { represents with
      shaped, used, entries
      minFid? := represents.minFid?.trans Std.ExtTreeMap.minKey?_modify_eq_minKey?.symm
      maxFid? := represents.maxFid?.trans Std.ExtTreeMap.maxKey?_modify_eq_maxKey?.symm
      count := represents.count.trans Std.ExtTreeMap.size_modify.symm }
  unfold FidTable.setRipple definition?
  rw [represents.entries, wellFormed.entryOf?_filter]
  cases defined : dictionary.get? fid with
  | some field =>
    rw [defined] at known
    refine of_slots (.inr (FidSlots.size_put represents.shaped _ _)) (fun _ => ⟨fid, ?_⟩) fun other => ?_
    · rw [known]
      dsimp only
      rw [if_pos rfl]
      exact Option.some_ne_none _
    · rw [known, ← represents.entries]
      exact FidSlots.held?_put represents.shaped _ _ _
  | none =>
    rw [defined] at known
    refine of_slots represents.shaped (fun full => ?_) fun other => ?_
    · obtain ⟨other, found⟩ := represents.used full
      exact ⟨other, known other ▸ found⟩
    · rw [known]
      exact represents.entries other

/-! ## Scans -/

theorem Represents.placed (wellFormed : dictionary.WellFormed) : layout.slots.IsPlaced := fun {fid _} found =>
  wellFormed.fid_of_entryOf? ((represents.entries fid).symm.trans found)

theorem Represents.held?_iff (wellFormed : dictionary.WellFormed) {fid : Int16} {entry : FidEntry} :
    layout.slots.held? fid = some entry ∧ entry.isDefinition ↔
      ∃ field, dictionary.get? fid = some field ∧ entry = ⟨field, dictionary.tableOf? fid⟩ := by
  have filtered := wellFormed.entryOf?_filter fid
  rw [represents.entries, ← Option.filter_eq_some_iff, filtered, Option.map_eq_some_iff]
  simp only [eq_comm]

/-- The scan from the least identifier to the greatest one meets all definitions. -/
theorem Represents.mem_entries (wellFormed : dictionary.WellFormed) {entry : FidEntry} :
    entry ∈ layout.entries ↔ layout.slots.held? entry.field.fid = some entry ∧ entry.isDefinition := by
  unfold FidTable.entries
  rw [represents.minFid?, represents.maxFid?]
  have bounds (found : layout.slots.held? entry.field.fid = some entry ∧ entry.isDefinition) :
      ∃ least greatest, dictionary.minFid? = some least ∧ dictionary.maxFid? = some greatest ∧
        least ≤ entry.field.fid ∧ entry.field.fid ≤ greatest := by
    obtain ⟨field, defined, -⟩ := (represents.held?_iff wellFormed).mp found
    have member : entry.field.fid ∈ dictionary.definitions := by
      rw [Std.ExtTreeMap.mem_iff_isSome_getElem?]
      exact Option.isSome_of_eq_some defined
    have filled : dictionary.definitions ≠ ∅ := by
      intro empty
      rw [empty] at member
      exact Std.ExtTreeMap.not_mem_empty member
    obtain ⟨least, isLeast⟩ :=
      Option.ne_none_iff_exists'.mp (filled ∘ Std.ExtTreeMap.minKey?_eq_none_iff.mp)
    obtain ⟨greatest, isGreatest⟩ :=
      Option.ne_none_iff_exists'.mp (filled ∘ Std.ExtTreeMap.maxKey?_eq_none_iff.mp)
    refine ⟨least, greatest, isLeast, isGreatest, ?_, ?_⟩
    · exact Std.isLE_compare.mp ((Std.ExtTreeMap.minKey?_eq_some_iff_mem_and_forall.mp isLeast).2 _ member)
    · exact Std.isLE_compare.mp ((Std.ExtTreeMap.maxKey?_eq_some_iff_mem_and_forall.mp isGreatest).2 _ member)
  constructor
  · intro member
    split at member
    · obtain ⟨found, isDefinition, -⟩ :=
        (FidSlots.mem_definitions represents.shaped (represents.placed wellFormed)).mp member
      exact ⟨found, isDefinition⟩
    · cases member
  · intro found
    obtain ⟨least, greatest, isLeast, isGreatest, above, below⟩ := bounds found
    rw [isLeast, isGreatest]
    refine (FidSlots.mem_definitions represents.shaped (represents.placed wellFormed)).mpr
      ⟨found.1, found.2, ?_, ?_⟩
    · exact Nat.le_of_not_lt fun before => Int16.not_lt.mpr above (FidSlots.position_lt_position.mp before)
    · exact Nat.lt_succ_of_le (Nat.le_of_not_lt fun before =>
        Int16.not_lt.mpr below (FidSlots.position_lt_position.mp before))

theorem Represents.entries_ascending (wellFormed : dictionary.WellFormed) :
    layout.entries.Pairwise (·.field.fid < ·.field.fid) := by
  unfold FidTable.entries
  split
  · exact FidSlots.definitions_ascending represents.shaped (represents.placed wellFormed) _ _
  · exact .nil

theorem Represents.entries_eq (wellFormed : dictionary.WellFormed) :
    layout.entries.map (·.field) = dictionary.toList := by
  refine FidSlots.eq_of_ascending FieldDefinition.fid
    (List.pairwise_map.mpr (represents.entries_ascending wellFormed)) wellFormed.toList_ascending fun field => ?_
  rw [List.mem_map, wellFormed.mem_toList]
  constructor
  · rintro ⟨entry, member, rfl⟩
    obtain ⟨field, defined, same⟩ :=
      (represents.held?_iff wellFormed).mp ((represents.mem_entries wellFormed).mp member)
    rw [defined, same]
  · intro defined
    refine ⟨⟨field, dictionary.tableOf? field.fid⟩, (represents.mem_entries wellFormed).mpr ?_, rfl⟩
    exact (represents.held?_iff wellFormed).mpr ⟨field, defined, rfl⟩

/-! ## Lookups -/

theorem Represents.byAcronym?_eq (wellFormed : dictionary.WellFormed) (acronym : String) :
    (layout.byAcronym? acronym).map (·.field) = dictionary.byAcronym? acronym := by
  have definition? (fid : Int16) : (layout.definition? fid).map (·.field) = dictionary.get? fid := by
    rw [FidTable.definition?, represents.entries, wellFormed.entryOf?_filter, Option.map_map]
    exact Option.map_id'
  unfold FidTable.byAcronym? Dictionary.byAcronym?
  rw [represents.names]
  cases dictionary.names with
  | some names =>
    dsimp only
    cases names[acronym]? with
    | some fid => exact definition? fid
    | none => rfl
  | none =>
    dsimp only
    rw [← represents.entries_eq wellFormed, List.find?_map]
    rfl

/-- Acronyms that are looked up one after another lead to the fields to which names lead that are collected once. -/
theorem Represents.resolveRipples (wellFormed : dictionary.WellFormed) (indexed : dictionary.IsIndexed)
    (ripples : List (Int16 × String)) :
    (layout.resolveRipples ripples).Represents (dictionary.resolveRipples ripples) := by
  unfold FidTable.resolveRipples Dictionary.resolveRipples
  generalize collected : dictionary.names.getD dictionary.buildNames = names
  dsimp only
  induction ripples generalizing layout dictionary with
  | nil => exact represents
  | cons request rest ih =>
    obtain ⟨fid, acronym⟩ := request
    have told : (layout.byAcronym? acronym).map (·.field.fid) = names[acronym]? := by
      rw [← collected, ← wellFormed.fid_byAcronym? indexed, ← represents.byAcronym?_eq wellFormed, Option.map_map]
      rfl
    rw [List.foldl_cons, List.foldl_cons, ← told]
    dsimp only
    cases layout.byAcronym? acronym with
    | none => exact ih represents wellFormed indexed collected
    | some target =>
      have sound := Dictionary.isIndexed_invariant.ripple ⟨wellFormed, indexed⟩ fid target.field.fid
      refine ih (represents.setRipple wellFormed fid target.field.fid) sound.1 sound.2 ?_
      dsimp only [Option.map_some]
      rw [wellFormed.buildNames_setRipple]
      exact collected

/-! ## Names -/

theorem Represents.withNames (wellFormed : dictionary.WellFormed) (keep : Bool) :
    (layout.withNames keep).Represents (dictionary.withNames keep) := by
  have names : layout.buildNames = dictionary.buildNames := by
    unfold FidTable.buildNames Dictionary.buildNames
    rw [← represents.entries_eq wellFormed, List.foldl_map]
  refine { represents with names := ?_ }
  change (if keep then some layout.buildNames else none) = _
  rw [names]
  rfl

theorem Represents.clear : layout.clear.Represents dictionary.clear := by
  unfold FidTable.clear Dictionary.clear
  rw [represents.names]
  exact represents_empty.withNames Dictionary.wellFormed_invariant.empty _

end

end FidTable

end MarketWire
