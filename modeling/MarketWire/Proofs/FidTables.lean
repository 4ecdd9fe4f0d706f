import MarketWire.Proofs.Names

/-! Dictionaries laid out in slots.

The layout has one slot for each field identifier, all of them or none, and keeps the number of definitions and
their least and greatest identifiers beside the slots. A table of enumerated values may refer to a field that is
not defined; a placeholder stands in the slot until the definition arrives. Each operation works on the slots as
far as it can be told from them, and answers what the operation on dictionaries answers.
-/

set_option autoImplicit false

namespace MarketWire

/-- A definition, or a placeholder for one that has no type, with the table to which the field refers. -/
structure FidEntry where
  field : FieldDefinition
  table? : Option EnumTable

def FidEntry.isDefinition (entry : FidEntry) : Bool := entry.field.wireType ≠ .unknown

def FidEntry.placeholder (fid : Int16) (acronym : String) (table : EnumTable) : FidEntry :=
  ⟨{ fid, acronym, wireType := .unknown }, some table⟩

/-! ## Slots -/

abbrev FidSlots := Array (Option FidEntry)

namespace FidSlots

def full : Nat := 0x10000

def position (fid : Int16) : Nat := (fid.toInt + 0x8000).toNat

def held? (slots : FidSlots) (fid : Int16) : Option FidEntry := slots[position fid]?.join

def allocate (slots : FidSlots) : FidSlots := if slots.isEmpty then .replicate full none else slots

def put (slots : FidSlots) (fid : Int16) (entry : FidEntry) : FidSlots :=
  slots.allocate.setIfInBounds (position fid) (some entry)

/-- The entries in the slots from one position to another one that are no placeholders. -/
def definitions (slots : FidSlots) (first behind : Nat) : List FidEntry :=
  ((slots.toList.take behind).drop first).filterMap (·.filter (·.isDefinition))

theorem position_lt (fid : Int16) : position fid < full := by
  have least := fid.le_toInt
  have most := fid.toInt_lt
  unfold position full
  omega

theorem toInt_position (fid : Int16) : fid.toInt = position fid - 0x8000 := by
  have least := fid.le_toInt
  unfold position
  omega

theorem position_inj {fid other : Int16} : position fid = position other ↔ fid = other := by
  refine ⟨fun same => ?_, congrArg position⟩
  rw [← Int16.toInt_inj, toInt_position, toInt_position, same]

theorem position_lt_position {fid other : Int16} : position fid < position other ↔ fid < other := by
  rw [Int16.lt_iff_toInt_lt, toInt_position, toInt_position]
  omega

theorem exists_position {index : Nat} (inside : index < full) : ∃ fid, position fid = index := by
  refine ⟨.ofInt (index - 0x8000), ?_⟩
  unfold full at inside
  unfold position
  rw [Int16.toInt_ofInt_of_le (by omega) (by omega)]
  omega

def IsShaped (slots : FidSlots) : Prop := slots.size = 0 ∨ slots.size = full

variable {slots : FidSlots}

theorem size_allocate (shaped : slots.IsShaped) : slots.allocate.size = full := by
  unfold allocate
  split
  case isTrue => exact Array.size_replicate
  case isFalse filled => exact shaped.resolve_left (filled ∘ Array.isEmpty_iff_size_eq_zero.mpr)

theorem allocate_of_held? {fid : Int16} {entry : FidEntry} (found : slots.held? fid = some entry) :
    slots.allocate = slots := by
  unfold allocate
  refine if_neg fun empty => ?_
  rw [Array.isEmpty_iff.mp empty] at found
  cases found

theorem held?_allocate (fid : Int16) : slots.allocate.held? fid = slots.held? fid := by
  unfold allocate
  split
  case isTrue empty =>
    unfold held?
    rw [Array.isEmpty_iff.mp empty, Array.getElem?_replicate, if_pos (position_lt fid)]
    rfl
  case isFalse => rfl

theorem size_put (shaped : slots.IsShaped) (fid : Int16) (entry : FidEntry) : (slots.put fid entry).size = full := by
  rw [put, Array.size_setIfInBounds, size_allocate shaped]

theorem held?_put (shaped : slots.IsShaped) (fid other : Int16) (entry : FidEntry) :
    (slots.put fid entry).held? other = if fid = other then some entry else slots.held? other := by
  unfold held? put
  rw [Array.getElem?_setIfInBounds, size_allocate shaped, if_pos (position_lt fid)]
  by_cases same : fid = other
  · rw [if_pos same, if_pos (position_inj.mpr same)]
    rfl
  · rw [if_neg same, if_neg (same ∘ position_inj.mp)]
    exact held?_allocate other

theorem put_allocate (shaped : slots.IsShaped) (fid : Int16) (entry : FidEntry) :
    slots.allocate.put fid entry = slots.put fid entry := by
  have again : slots.allocate.allocate = slots.allocate := by
    refine if_neg fun empty => ?_
    rw [Array.isEmpty_iff_size_eq_zero, size_allocate shaped] at empty
    cases empty
  rw [put, put, again]

/-! ### Scans -/

def IsPlaced (slots : FidSlots) : Prop := ∀ {fid entry}, slots.held? fid = some entry → entry.field.fid = fid

theorem held?_eq_some_iff {fid : Int16} {entry : FidEntry} :
    slots.held? fid = some entry ↔ slots[position fid]? = some (some entry) :=
  Option.join_eq_some_iff

theorem position_of_getElem? (shaped : slots.IsShaped) (placed : slots.IsPlaced) {index : Nat} {entry : FidEntry}
    (found : slots[index]? = some (some entry)) : position entry.field.fid = index := by
  have inside := (Array.getElem?_eq_some_iff.mp found).1
  have used : slots.size = full := shaped.resolve_left fun empty => Nat.not_lt_zero index (empty ▸ inside)
  obtain ⟨fid, rfl⟩ := exists_position (used ▸ inside)
  rw [placed (held?_eq_some_iff.mpr found)]

theorem mem_definitions (shaped : slots.IsShaped) (placed : slots.IsPlaced) {first behind : Nat} {entry : FidEntry} :
    entry ∈ slots.definitions first behind ↔ slots.held? entry.field.fid = some entry ∧ entry.isDefinition ∧
      first ≤ position entry.field.fid ∧ position entry.field.fid < behind := by
  have cell (index : Nat) : ((slots.toList.take behind).drop first)[index]? =
      if first + index < behind then slots[first + index]? else none := by
    rw [List.getElem?_drop, List.getElem?_take, Array.getElem?_toList]
  unfold definitions
  rw [List.mem_filterMap]
  constructor
  · rintro ⟨held, member, found⟩
    obtain ⟨rfl, isDefinition⟩ := Option.filter_eq_some_iff.mp found
    obtain ⟨index, held⟩ := List.mem_iff_getElem?.mp member
    rw [cell] at held
    split at held
    case isTrue before =>
      have place := position_of_getElem? shaped placed held
      exact ⟨held?_eq_some_iff.mpr (place ▸ held), isDefinition, by omega, by omega⟩
    case isFalse => cases held
  · rintro ⟨found, isDefinition, after, before⟩
    refine ⟨some entry, List.mem_iff_getElem?.mpr ⟨position entry.field.fid - first, ?_⟩, ?_⟩
    · rw [cell, Nat.add_sub_of_le after, if_pos before]
      exact held?_eq_some_iff.mp found
    · exact Option.filter_eq_some_iff.mpr ⟨rfl, isDefinition⟩

theorem definitions_ascending (shaped : slots.IsShaped) (placed : slots.IsPlaced) (first behind : Nat) :
    (slots.definitions first behind).Pairwise (·.field.fid < ·.field.fid) := by
  refine List.pairwise_filterMap.mpr (List.Pairwise.sublist
    ((List.drop_sublist _ _).trans (List.take_sublist _ _)) (List.pairwise_iff_getElem.mpr ?_))
  intro index later inside inside' before entry found other found'
  have held : slots[index]? = some (some entry) := by
    rw [← Array.getElem?_toList, List.getElem?_eq_getElem inside, (Option.filter_eq_some_iff.mp found).1]
  have held' : slots[later]? = some (some other) := by
    rw [← Array.getElem?_toList, List.getElem?_eq_getElem inside', (Option.filter_eq_some_iff.mp found').1]
  rw [← position_lt_position, position_of_getElem? shaped placed held, position_of_getElem? shaped placed held']
  exact before

/-- Lists with the same elements, both in ascending order of identifiers. -/
theorem eq_of_ascending {α : Type} (fid : α → Int16) {first second : List α}
    (ascending : first.Pairwise (fid · < fid ·)) (ascending' : second.Pairwise (fid · < fid ·))
    (same : ∀ value, value ∈ first ↔ value ∈ second) : first = second := by
  have distinct {values : List α} (ascending : values.Pairwise (fid · < fid ·)) : values.Nodup := by
    refine ascending.imp fun {value other} before => ?_
    rintro rfl
    exact Int16.lt_irrefl before
  refine List.Perm.eq_of_pairwise (fun value other _ _ before after => ?_) ascending ascending'
    ((List.perm_ext_iff_of_nodup (distinct ascending) (distinct ascending')).mpr same)
  exact absurd before (Int16.lt_asymm after)

end FidSlots

/-! ## Operations -/

structure FidTable where
  slots : FidSlots := #[]
  tables : Array EnumTable := #[]
  names : Option (Std.ExtTreeMap String Int16) := some ∅
  minFid? : Option Int16 := none
  maxFid? : Option Int16 := none
  count : Nat := 0
  id : Int32 := 0
  fieldTags : FieldTags := {}
  enumTags : EnumTags := {}

namespace FidTable

def entries (layout : FidTable) : List FidEntry :=
  match layout.minFid?, layout.maxFid? with
  | some least, some greatest =>
    layout.slots.definitions (FidSlots.position least) (FidSlots.position greatest + 1)
  | _, _ => []

def buildNames (layout : FidTable) : Std.ExtTreeMap String Int16 :=
  layout.entries.foldl (fun names entry => names.insertIfNew entry.field.acronym entry.field.fid) ∅

def withNames (layout : FidTable) (keep : Bool) : FidTable :=
  { layout with names := if keep then some layout.buildNames else none }

def clear (layout : FidTable) : FidTable := withNames {} layout.names.isSome

def register (layout : FidTable) (field : FieldDefinition) : FidTable :=
  { layout with
    count := layout.count + 1
    minFid? := some (layout.minFid?.elim field.fid (min · field.fid))
    maxFid? := some (layout.maxFid?.elim field.fid (max · field.fid))
    names := layout.names.map (·.insertIfNew field.acronym field.fid) }

def allocate (layout : FidTable) : FidTable := { layout with slots := layout.slots.allocate }

def put (layout : FidTable) (fid : Int16) (entry : FidEntry) : FidTable :=
  { layout with slots := layout.slots.put fid entry }

/-- The entry for a definition that meets what stands in its slot: nothing, or a placeholder with the same
acronym or none. The table to which a placeholder refers is kept. -/
def merge (field : FieldDefinition) : Option FidEntry → Except DictionaryError FidEntry
  | some existing =>
    if existing.isDefinition then .error (.duplicateFid field.fid)
    else if existing.field.acronym ≠ "" ∧ existing.field.acronym ≠ field.acronym then
      .error (.acronymMismatch field.fid field.acronym existing.field.acronym)
    else .ok { existing with field }
  | none => .ok ⟨field, none⟩

def addField (field : FieldDefinition) : EStateM DictionaryError FidTable Unit := do
  if field.fid = 0 then throw .reservedFid
  if field.wireType = .unknown then throw (.invalidWireType field.fid)
  modify allocate
  match merge field ((← get).slots.held? field.fid) with
  | .error error => throw error
  | .ok entry => modify fun layout => (layout.put field.fid entry).register field

def referenceError? (slots : FidSlots) (before : List Int16) : List (Int16 × String) → Option DictionaryError
  | [] => none
  | (fid, acronym) :: rest =>
    if fid ∈ before then some (.duplicateEnumTableReference fid)
    else match slots.held? fid with
      | some existing =>
        if acronym ≠ "" ∧ existing.field.acronym ≠ acronym then
          some (.acronymMismatch fid existing.field.acronym acronym)
        else if existing.table?.isSome then some (.duplicateEnumTableReference fid)
        else referenceError? slots (before ++ [fid]) rest
      | none => referenceError? slots (before ++ [fid]) rest

def referring (table : EnumTable) (fid : Int16) (acronym : String) : Option FidEntry → FidEntry
  | some existing => { existing with table? := some table }
  | none => .placeholder fid acronym table

def refer (table : EnumTable) (slots : FidSlots) (reference : Int16 × String) : FidSlots :=
  slots.put reference.1 (referring table reference.1 reference.2 (slots.held? reference.1))

def addTable (references : List (Int16 × String)) (values : List (UInt16 × EnumLabel)) :
    EStateM DictionaryError FidTable Unit := do
  match EnumTable.ofList (references.map Prod.fst) values with
  | .error error => throw error
  | .ok table =>
    match referenceError? (← get).slots [] references with
    | some error => throw error
    | none => modify fun layout => { layout with
        slots := references.foldl (refer table) layout.slots
        tables := layout.tables.push table }

def checkId (id : Int32) (adopt : Bool) : EStateM DictionaryError FidTable Unit := do
  let own := (← get).id
  if id ≠ 0 ∧ own ≠ 0 ∧ id ≠ own then throw (.dictionaryIdMismatch id own)
  if adopt ∧ id ≠ 0 then modify ({ · with id })

def setFieldTags (change : FieldTags → FieldTags) : EStateM DictionaryError FidTable Unit :=
  modify fun layout => { layout with fieldTags := change layout.fieldTags }

def setEnumTags (change : EnumTags → EnumTags) : EStateM DictionaryError FidTable Unit :=
  modify fun layout => { layout with enumTags := change layout.enumTags }

def definition? (layout : FidTable) (fid : Int16) : Option FidEntry :=
  (layout.slots.held? fid).filter (·.isDefinition)

def byAcronym? (layout : FidTable) (acronym : String) : Option FidEntry :=
  match layout.names with
  | some names => names[acronym]?.bind layout.definition?
  | none => layout.entries.find? (·.field.acronym == acronym)

def setRipple (layout : FidTable) (fid target : Int16) : FidTable :=
  match layout.definition? fid with
  | some entry => layout.put fid { entry with field := { entry.field with rippleTo := target } }
  | none => layout

/-- Let fields ripple to the fields with some acronyms, each looked up when its turn comes. -/
def resolveRipples (ripples : List (Int16 × String)) (layout : FidTable) : FidTable :=
  ripples.foldl (fun layout (fid, acronym) =>
    match layout.byAcronym? acronym with
    | some target => layout.setRipple fid target.field.fid
    | none => layout) layout

instance : Store FidTable where
  addField := addField
  addTable := addTable
  checkId := checkId
  setFieldTags := setFieldTags
  setEnumTags := setEnumTags
  resolveRipples := resolveRipples
  withNames := withNames
  clear := clear

/-! ## References -/

section
variable {slots : FidSlots} {references : List (Int16 × String)}

theorem shaped_foldl_refer (shaped : slots.IsShaped) (table : EnumTable) :
    (references.foldl (refer table) slots).IsShaped := by
  induction references generalizing slots with
  | nil => exact shaped
  | cons reference rest ih => exact ih (.inr (FidSlots.size_put shaped _ _))

theorem held?_foldl_refer_of_not_mem (shaped : slots.IsShaped) (table : EnumTable) {fid : Int16}
    (absent : fid ∉ references.map Prod.fst) :
    (references.foldl (refer table) slots).held? fid = slots.held? fid := by
  induction references generalizing slots with
  | nil => rfl
  | cons reference rest ih =>
    rw [List.map_cons, List.mem_cons, not_or] at absent
    obtain ⟨different, later⟩ := absent
    have shaped' : (refer table slots reference).IsShaped := .inr (FidSlots.size_put shaped _ _)
    rw [List.foldl_cons, ih shaped' later, refer, FidSlots.held?_put shaped, if_neg (Ne.symm different)]

theorem held?_foldl_refer_of_mem (shaped : slots.IsShaped) (table : EnumTable) {fid : Int16} {acronym : String}
    (distinct : (references.map Prod.fst).Nodup) (member : (fid, acronym) ∈ references) :
    (references.foldl (refer table) slots).held? fid =
      some (referring table fid acronym (slots.held? fid)) := by
  induction references generalizing slots with
  | nil => cases member
  | cons reference rest ih =>
    have shaped' : (refer table slots reference).IsShaped := .inr (FidSlots.size_put shaped _ _)
    obtain ⟨first, others⟩ := List.nodup_cons.mp distinct
    rw [List.foldl_cons]
    rcases List.mem_cons.mp member with rfl | later
    · rw [held?_foldl_refer_of_not_mem shaped' table first, refer, FidSlots.held?_put shaped, if_pos rfl]
    · have different : reference.1 ≠ fid := by
        rintro rfl
        exact first (List.mem_map.mpr ⟨_, later, rfl⟩)
      rw [ih shaped' others later, refer, FidSlots.held?_put shaped, if_neg different]

end

end FidTable

end MarketWire
