import MarketWire.Proofs.EnumTables

/-! Tables of enumerated values laid out in slots, one for each number from zero to the largest one.

The values are put in their slots one by one, and one that finds its slot taken stops this. All the while the slots hold
what a table of the same values knows of their numbers, so that those that are made are those of the table.
-/

set_option autoImplicit false

namespace MarketWire

/-- The fields that refer to a table, and a slot for each number that a value may have. -/
structure EnumSlots where
  fids : List Int16
  slots : Array (Option (UInt16 × EnumLabel))

namespace EnumSlots

/-- Put values in their slots, which must be empty. -/
def fill (slots : Array (Option (UInt16 × EnumLabel))) :
    List (UInt16 × EnumLabel) → Except DictionaryError (Array (Option (UInt16 × EnumLabel)))
  | [] => .ok slots
  | (value, label) :: rest =>
    if slots[value.toNat]?.join.isSome then .error (.duplicateEnumValue value)
    else fill (slots.setIfInBounds value.toNat (some (value, label))) rest

def needed (values : List (UInt16 × EnumLabel)) : Nat := (values.map (·.1.toNat)).max?.getD 0 + 1

def ofList (fids : List Int16) (values : List (UInt16 × EnumLabel)) : Except DictionaryError EnumSlots :=
  if fids.isEmpty then .error .noReferencingFids
  else (fill (.replicate (needed values) none) values).map (⟨fids, ·⟩)

def maxValue (table : EnumSlots) : UInt16 := .ofNat (min (table.slots.size - 1) 65535)

def get? (table : EnumSlots) (value : UInt16) : Option EnumLabel := table.slots[value.toNat]?.join.map Prod.snd

def toList (table : EnumSlots) : List (UInt16 × EnumLabel) := table.slots.toList.filterMap id

def size (table : EnumSlots) : Nat := table.toList.length

def valueOf? (table : EnumSlots) (display : Bytes) : Except DictionaryError (Option UInt16) :=
  (table.toList.filter (·.2.display == display)).foldlM
    (fun found entry =>
      if found.isSome then .error (.duplicateEnumDisplay (String.ofList (Utf8.decodeLossy display)))
      else .ok (some entry.1))
    none

structure Shows (slots : EnumSlots) (table : EnumTable) : Prop where
  fids : slots.fids = table.fids
  toList : slots.toList = table.toList
  size : slots.size = table.size
  maxValue : slots.maxValue = table.maxValue
  get? (value : UInt16) : slots.get? value = table.get? value
  valueOf? (display : Bytes) : slots.valueOf? display = table.valueOf? display

end EnumSlots

/-! ## Labels in slots -/

namespace EnumTable

def slotted (labels : Std.ExtTreeMap UInt16 EnumLabel) (count : Nat) : Array (Option (UInt16 × EnumLabel)) :=
  (Array.range count).map fun number => labels[UInt16.ofNat number]?.map (UInt16.ofNat number, ·)

def inSlots (table : EnumTable) : EnumSlots := ⟨table.fids, slotted table.labels (table.maxValue.toNat + 1)⟩

variable {labels : Std.ExtTreeMap UInt16 EnumLabel} {count : Nat} {fids : List Int16}
  {values : List (UInt16 × EnumLabel)}

theorem getElem?_slotted (labels : Std.ExtTreeMap UInt16 EnumLabel) (count number : Nat) :
    (slotted labels count)[number]? =
      if number < count then some (labels[UInt16.ofNat number]?.map (UInt16.ofNat number, ·)) else none := by
  unfold slotted
  rw [Array.getElem?_map, Array.getElem?_range]
  split <;> rfl

theorem size_slotted (labels : Std.ExtTreeMap UInt16 EnumLabel) (count : Nat) :
    (slotted labels count).size = count := by
  rw [slotted, Array.size_map, Array.size_range]

theorem join_slotted {value : UInt16} (inside : value.toNat < count) :
    (slotted labels count)[value.toNat]?.join = labels[value]?.map (value, ·) := by
  rw [getElem?_slotted, if_pos inside, UInt16.ofNat_toNat, Option.join_some]

theorem slotted_empty (count : Nat) : slotted ∅ count = .replicate count none := by
  refine Array.ext_getElem? fun number => ?_
  rw [getElem?_slotted, Array.getElem?_replicate, Std.ExtTreeMap.getElem?_empty]
  rfl

theorem slotted_insert {value : UInt16} (label : EnumLabel) (inside : value.toNat < count)
    (few : count ≤ UInt16.size) :
    (slotted labels count).setIfInBounds value.toNat (some (value, label)) =
      slotted (labels.insert value label) count := by
  refine Array.ext_getElem? fun number => ?_
  rw [Array.getElem?_setIfInBounds, getElem?_slotted, getElem?_slotted, size_slotted, if_pos inside]
  by_cases own : value.toNat = number
  · subst own
    rw [if_pos rfl, if_pos inside, UInt16.ofNat_toNat, Std.ExtTreeMap.getElem?_insert_self]
    rfl
  · rw [if_neg own]
    -- Another slot below the bound belongs to another number, since all of them are numbers of 16 bits.
    split
    case isTrue below =>
      have other : value ≠ UInt16.ofNat number := by
        rintro rfl
        exact own (UInt16.toNat_ofNat_of_lt' (Nat.lt_of_lt_of_le below few))
      rw [Std.ExtTreeMap.getElem?_insert, if_neg (by simpa using other)]
    case isFalse => rfl

/-- Slots are filled as labels are added, and fail at the same value. -/
theorem fill_slotted (few : count ≤ UInt16.size) (inside : ∀ entry ∈ values, entry.1.toNat < count) :
    EnumSlots.fill (slotted labels count) values = (addLabels labels values).map (slotted · count) := by
  induction values generalizing labels with
  | nil => rfl
  | cons entry rest ih =>
    obtain ⟨value, label⟩ := entry
    obtain ⟨first, others⟩ := List.forall_mem_cons.mp inside
    have taken : (slotted labels count)[value.toNat]?.join.isSome ↔ value ∈ labels := by
      rw [join_slotted first, Option.isSome_map, Std.ExtTreeMap.mem_iff_isSome_getElem?]
    unfold EnumSlots.fill addLabels
    by_cases known : value ∈ labels
    · rw [if_pos (taken.mpr known), if_pos known]
      rfl
    · rw [if_neg (mt taken.mp known), if_neg known, slotted_insert label first few]
      exact ih others

/-! ## A table in slots -/

theorem toList_inSlots_eq (table : EnumTable) :
    table.inSlots.toList = (List.range (table.maxValue.toNat + 1)).filterMap fun number =>
      table.labels[UInt16.ofNat number]?.map (UInt16.ofNat number, ·) := by
  simp only [EnumSlots.toList, inSlots, slotted, Array.toList_map, Array.toList_range, List.filterMap_map,
    Function.id_comp]

theorem toList_inSlots_ascending (table : EnumTable) : table.inSlots.toList.Pairwise (·.1 < ·.1) := by
  have numbers : (List.range (table.maxValue.toNat + 1)).Pairwise (UInt16.ofNat · < UInt16.ofNat ·) := by
    refine List.pairwise_lt_range.imp_of_mem fun {first second} _ inside before => ?_
    have few : second < UInt16.size := Nat.lt_of_lt_of_le (List.mem_range.mp inside) table.maxValue.toNat_lt
    rwa [UInt16.lt_iff_toNat_lt, UInt16.toNat_ofNat_of_lt' (Nat.lt_trans before few), UInt16.toNat_ofNat_of_lt' few]
  rw [toList_inSlots_eq]
  refine numbers.filterMap _ fun first second before entry found entry' found' => ?_
  obtain ⟨-, -, rfl⟩ := Option.map_eq_some_iff.mp found
  obtain ⟨-, -, rfl⟩ := Option.map_eq_some_iff.mp found'
  exact before

theorem mem_toList_inSlots {table : EnumTable} {entry : UInt16 × EnumLabel} :
    entry ∈ table.inSlots.toList ↔ entry ∈ table.toList := by
  rw [toList_inSlots_eq, List.mem_filterMap, mem_toList]
  constructor
  · rintro ⟨number, -, found⟩
    obtain ⟨label, held, rfl⟩ := Option.map_eq_some_iff.mp found
    exact held
  · intro held
    have inside := UInt16.le_iff_toNat_le.mp (le_maxValue (mem_toList.mpr held))
    refine ⟨entry.1.toNat, List.mem_range.mpr (Nat.lt_succ_of_le inside), ?_⟩
    rw [UInt16.ofNat_toNat]
    exact Option.map_eq_some_iff.mpr ⟨entry.2, held, rfl⟩

theorem toList_inSlots (table : EnumTable) : table.inSlots.toList = table.toList := by
  have ascending := table.toList_inSlots_ascending
  have nodup : table.inSlots.toList.Nodup := by
    refine ascending.imp fun {first second} before => ?_
    rintro rfl
    exact UInt16.lt_irrefl _ before
  refine List.Perm.eq_of_pairwise (fun first second _ _ before after => ?_) ascending table.toList_ascending
    ((List.perm_ext_iff_of_nodup nodup table.toList_nodup).mpr fun _ => mem_toList_inSlots)
  exact absurd (UInt16.lt_trans before after) (UInt16.lt_irrefl _)

theorem size_inSlots (table : EnumTable) : table.inSlots.size = table.size := by
  rw [EnumSlots.size, toList_inSlots, toList, Std.ExtTreeMap.length_toList, size]

theorem maxValue_inSlots (table : EnumTable) : table.inSlots.maxValue = table.maxValue := by
  have bound := table.maxValue.toNat_lt
  have last : min (table.inSlots.slots.size - 1) 65535 = table.maxValue.toNat := by
    rw [inSlots, size_slotted]
    omega
  rw [EnumSlots.maxValue, last, UInt16.ofNat_toNat]

theorem get?_inSlots (table : EnumTable) (value : UInt16) : table.inSlots.get? value = table.get? value := by
  unfold EnumSlots.get? get?
  by_cases inside : value.toNat < table.maxValue.toNat + 1
  · rw [inSlots, join_slotted inside, Option.map_map]
    exact Option.map_id'
  · -- A value behind the last slot is none of the table.
    rw [inSlots, getElem?_slotted, if_neg inside]
    refine (Option.eq_none_iff_forall_ne_some.mpr fun label held => inside ?_).symm
    have member : (value, label) ∈ table.toList := mem_toList.mpr held
    exact Nat.lt_succ_of_le (UInt16.le_iff_toNat_le.mp (le_maxValue member))

theorem valueOf?_inSlots (table : EnumTable) (display : Bytes) :
    table.inSlots.valueOf? display = table.valueOf? display := by
  unfold EnumSlots.valueOf? valueOf?
  rw [toList_inSlots]
  cases table.toList.filter (·.2.display == display) with
  | nil => rfl
  | cons first rest =>
    cases rest with
    | nil => rfl
    | cons second rest => rfl

theorem shows_inSlots (table : EnumTable) : table.inSlots.Shows table where
  fids := rfl
  toList := table.toList_inSlots
  size := table.size_inSlots
  maxValue := table.maxValue_inSlots
  get? := table.get?_inSlots
  valueOf? := table.valueOf?_inSlots

/-! ## Making the slots -/

theorem needed_le_iff {bound : Nat} :
    EnumSlots.needed values ≤ bound + 1 ↔ ∀ entry ∈ values, entry.1.toNat ≤ bound := by
  unfold EnumSlots.needed
  cases found : (values.map (·.1.toNat)).max? with
  | none =>
    obtain rfl := List.map_eq_nil_iff.mp (List.max?_eq_none_iff.mp found)
    exact ⟨fun _ => nofun, fun _ => Nat.le_add_left 1 bound⟩
  | some greatest =>
    rw [Option.getD_some, Nat.add_le_add_iff_right, List.max?_le_iff found, List.forall_mem_map]

theorem lt_needed {entry : UInt16 × EnumLabel} (member : entry ∈ values) :
    entry.1.toNat < EnumSlots.needed values :=
  Nat.lt_succ_of_le (needed_le_iff.mp (Nat.le_refl (EnumSlots.needed values)) entry member)

theorem needed_le : EnumSlots.needed values ≤ UInt16.size :=
  needed_le_iff.mpr fun entry _ => Nat.le_of_lt_succ entry.1.toNat_lt

theorem needed_of_ofList {table : EnumTable} (made : ofList fids values = .ok table) :
    EnumSlots.needed values = table.maxValue.toNat + 1 := by
  have holds := holds_of_perm (toList_perm_of_ofList made)
  apply Nat.le_antisymm
  · exact needed_le_iff.mpr fun entry member => UInt16.le_iff_toNat_le.mp (holds.least_bound entry member)
  · cases values with
    | nil =>
      rw [holds.no_greatest rfl]
      exact Nat.le_add_left 1 0
    | cons entry rest =>
      obtain ⟨largest, member, same⟩ := List.mem_map.mp (holds.greatest (List.cons_ne_nil _ _))
      exact same ▸ lt_needed member

/-- The slots that are made of values are those of the table that is made of them. -/
theorem ofList_inSlots (fids : List Int16) (values : List (UInt16 × EnumLabel)) :
    EnumSlots.ofList fids values = (ofList fids values).map inSlots := by
  have made := @needed_of_ofList fids values
  unfold EnumSlots.ofList
  unfold ofList at made ⊢
  split
  case isTrue => rfl
  case isFalse filled =>
    rw [if_neg filled] at made
    rw [← slotted_empty, fill_slotted needed_le fun _ => lt_needed]
    cases added : addLabels ∅ values with
    | error error => rfl
    | ok labels =>
      rw [added] at made
      exact congrArg (fun count => Except.ok (EnumSlots.mk fids (slotted labels count))) (made rfl)

/-- A table is made of values exactly if it has a field and no number comes twice. It holds these values, whatever their
order, and so do its slots, which are filled value by value. -/
theorem ofList_holds (fids : List Int16) (values : List (UInt16 × EnumLabel)) :
    ((∃ table, ofList fids values = .ok table) ↔ fids ≠ [] ∧ (values.map Prod.fst).Nodup) ∧
      EnumSlots.ofList fids values = (ofList fids values).map inSlots ∧
        ∀ table, ofList fids values = .ok table →
          table.Holds fids values ∧ table.inSlots.Shows table ∧
            ∀ others : List (UInt16 × EnumLabel), others.Perm values → ofList fids others = .ok table := by
  refine ⟨⟨?_, ?_⟩, ofList_inSlots fids values, fun table made => ⟨?_, table.shows_inSlots, ?_⟩⟩
  · rintro ⟨table, made⟩
    obtain ⟨filled, distinct, -⟩ := ofList_eq_ok_iff.mp made
    exact ⟨filled, distinct⟩
  · exact fun ⟨filled, distinct⟩ => ⟨_, ofList_eq_ok_iff.mpr ⟨filled, distinct, rfl⟩⟩
  · exact (fids_of_ofList made).1 ▸ holds_of_perm (toList_perm_of_ofList made)
  · exact fun others perm => ofList_perm perm made

/-- The largest number of all has a slot, and a table without values has one slot. -/
theorem ofList_holds_greatest :
    (∃ table, ofList [4] [(65535, ⟨[65], ""⟩), (0, ⟨[66], ""⟩)] = .ok table ∧ table.maxValue = 65535 ∧
      table.get? 0 = some ⟨[66], ""⟩ ∧ table.valueOf? [65] = .ok (some 65535)) ∧
    ∃ table, ofList [4] [] = .ok table ∧ table.maxValue = 0 ∧ table.toList = [] := by
  constructor
  · obtain ⟨makes, -, told⟩ := ofList_holds [4] [(65535, ⟨[65], ""⟩), (0, ⟨[66], ""⟩)]
    obtain ⟨table, made⟩ := makes.mpr (by decide)
    have holds := (told table made).1
    refine ⟨table, made, ?_, holds.get.mpr (by decide), ?_⟩
    · exact UInt16.le_antisymm (UInt16.le_iff_toNat_le.mpr (Nat.le_of_lt_succ table.maxValue.toNat_lt))
        (holds.least_bound (65535, ⟨[65], ""⟩) (by decide))
    · exact holds.single (65535, ⟨[65], ""⟩) (by decide) (by decide)
  · obtain ⟨makes, -, told⟩ := ofList_holds [4] []
    obtain ⟨table, made⟩ := makes.mpr (by decide)
    have holds := (told table made).1
    exact ⟨table, made, holds.no_greatest rfl, holds.perm.eq_nil⟩

end EnumTable

end MarketWire
