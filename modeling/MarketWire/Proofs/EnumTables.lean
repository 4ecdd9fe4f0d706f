import Mathlib.Data.List.Nodup
import MarketWire.Proofs.EnumParts

/-! Tables of enumerated values and the values that they are made of.

A table is made of values in any order if no number comes twice. It has just these values, in ascending order, and finds
each of them by its number and by its display.
-/

set_option autoImplicit false

namespace MarketWire

namespace EnumTable

variable {fids : List Int16} {values : List (UInt16 × EnumLabel)} {table : EnumTable}

/-! ## Making a table -/

theorem addLabels_eq_ok_iff {labels made : Std.ExtTreeMap UInt16 EnumLabel} :
    addLabels labels values = .ok made ↔
      (values.map Prod.fst).Nodup ∧ (∀ entry ∈ values, entry.1 ∉ labels) ∧ made = labels.insertMany values := by
  constructor
  · intro added
    suffices distinct : (values.map Prod.fst).Nodup ∧ ∀ entry ∈ values, entry.1 ∉ labels by
      rw [addLabels_ok distinct.1 distinct.2] at added
      exact ⟨distinct.1, distinct.2, (Except.ok.inj added).symm⟩
    induction values generalizing labels with
    | nil => exact ⟨List.nodup_nil, nofun⟩
    | cons entry rest ih =>
      obtain ⟨value, label⟩ := entry
      unfold addLabels at added
      split at added
      case isTrue => cases added
      case isFalse free =>
        obtain ⟨others, fresh⟩ := ih added
        -- What is fresh behind a value differs from it and was not there before it.
        simp only [Std.ExtTreeMap.mem_insert, Std.LawfulEqCmp.compare_eq_iff_eq, not_or] at fresh
        refine ⟨List.nodup_cons.mpr ⟨fun again => ?_, others⟩, List.forall_mem_cons.mpr ⟨free, ?_⟩⟩
        · obtain ⟨entry, member, same⟩ := List.mem_map.mp again
          exact (fresh entry member).1 same.symm
        · exact fun entry member => (fresh entry member).2
  · rintro ⟨distinct, fresh, rfl⟩
    exact addLabels_ok distinct fresh

theorem ofList_eq_ok_iff : ofList fids values = .ok table ↔
    fids ≠ [] ∧ (values.map Prod.fst).Nodup ∧
      table = ⟨fids, (∅ : Std.ExtTreeMap UInt16 EnumLabel).insertMany values⟩ := by
  constructor
  · intro made
    have filled := (fids_of_ofList made).2
    unfold ofList at made
    rw [if_neg (by simpa using filled)] at made
    cases added : addLabels ∅ values with
    | error error =>
      rw [added] at made
      cases made
    | ok labels =>
      rw [added] at made
      obtain ⟨distinct, -, rfl⟩ := addLabels_eq_ok_iff.mp added
      exact ⟨filled, distinct, (Except.ok.inj made).symm⟩
  · rintro ⟨filled, distinct, rfl⟩
    unfold ofList
    rw [if_neg (by simpa using filled), addLabels_ok distinct (by simp)]
    rfl

/-! ## What a table holds -/

/-- A table has some values, no two of the same number, and finds them. -/
structure Holds (table : EnumTable) (fids : List Int16) (values : List (UInt16 × EnumLabel)) : Prop where
  fids : table.fids = fids
  perm : table.toList.Perm values
  ascending : table.toList.Pairwise (·.1 < ·.1)
  get {value : UInt16} {label : EnumLabel} : table.get? value = some label ↔ (value, label) ∈ values
  size : table.size = values.length
  greatest : values ≠ [] → table.maxValue ∈ values.map Prod.fst
  least_bound : ∀ entry ∈ values, entry.1 ≤ table.maxValue
  no_greatest : values = [] → table.maxValue = 0
  unknown {display : Bytes} : (∀ entry ∈ values, entry.2.display ≠ display) → table.valueOf? display = .ok none
  single : ∀ entry ∈ values, (∀ other ∈ values, other.2.display = entry.2.display → other = entry) →
    table.valueOf? entry.2.display = .ok (some entry.1)
  several : ∀ first ∈ values, ∀ second ∈ values, first ≠ second → first.2.display = second.2.display →
    table.valueOf? first.2.display =
      .error (.duplicateEnumDisplay (String.ofList (Utf8.decodeLossy first.2.display)))

theorem toList_ascending (table : EnumTable) : table.toList.Pairwise (·.1 < ·.1) :=
  Std.ExtTreeMap.ordered_keys_toList.imp Std.compare_eq_lt.mp

theorem toList_nodup (table : EnumTable) : table.toList.Nodup := List.Nodup.of_map _ table.keys_nodup

theorem mem_toList {entry : UInt16 × EnumLabel} : entry ∈ table.toList ↔ table.get? entry.1 = some entry.2 :=
  Std.ExtTreeMap.mem_toList_iff_getElem?_eq_some

theorem maxValue_cases (table : EnumTable) :
    (table.toList = [] ∧ table.maxValue = 0) ∨
      (table.maxValue ∈ table.toList.map Prod.fst ∧ ∀ entry ∈ table.toList, entry.1 ≤ table.maxValue) := by
  unfold maxValue
  cases found : table.labels.maxKey? with
  | none =>
    exact .inl ⟨Std.ExtTreeMap.toList_eq_nil_iff.mpr (Std.ExtTreeMap.maxKey?_eq_none_iff.mp found), rfl⟩
  | some greatest =>
    obtain ⟨member, above⟩ := Std.ExtTreeMap.maxKey?_eq_some_iff_mem_and_forall.mp found
    obtain ⟨label, held⟩ := Option.isSome_iff_exists.mp (Std.ExtTreeMap.mem_iff_isSome_getElem?.mp member)
    refine .inr ⟨List.mem_map.mpr ⟨(greatest, label), mem_toList.mpr held, rfl⟩, fun entry inside => ?_⟩
    refine Std.isLE_compare.mp (above entry.1 (Std.ExtTreeMap.mem_iff_isSome_getElem?.mpr ?_))
    exact Option.isSome_of_eq_some (mem_toList.mp inside)

theorem le_maxValue {entry : UInt16 × EnumLabel} (member : entry ∈ table.toList) : entry.1 ≤ table.maxValue := by
  rcases table.maxValue_cases with ⟨empty, -⟩ | ⟨-, above⟩
  · rw [empty] at member
    cases member
  · exact above entry member

/-! ### Values by their display -/

theorem valueOf?_unknown {display : Bytes} (absent : ∀ entry ∈ table.toList, entry.2.display ≠ display) :
    table.valueOf? display = .ok none := by
  have empty : table.toList.filter (·.2.display == display) = [] :=
    List.filter_eq_nil_iff.mpr fun entry member same => absent entry member (eq_of_beq same)
  unfold valueOf?
  rw [empty]

theorem valueOf?_single {entry : UInt16 × EnumLabel} (member : entry ∈ table.toList)
    (only : ∀ other ∈ table.toList, other.2.display = entry.2.display → other = entry) :
    table.valueOf? entry.2.display = .ok (some entry.1) := by
  have one : table.toList.filter (·.2.display == entry.2.display) = [entry] := by
    refine List.perm_singleton.mp ((List.perm_ext_iff_of_nodup (table.toList_nodup.filter _)
      (List.nodup_singleton entry)).mpr fun other => ?_)
    rw [List.mem_filter, List.mem_singleton]
    constructor
    · exact fun ⟨inside, same⟩ => only other inside (eq_of_beq same)
    · rintro rfl
      exact ⟨member, beq_self_eq_true _⟩
  unfold valueOf?
  rw [one]

theorem valueOf?_several {first second : UInt16 × EnumLabel} (member : first ∈ table.toList)
    (member' : second ∈ table.toList) (different : first ≠ second) (same : first.2.display = second.2.display) :
    table.valueOf? first.2.display =
      .error (.duplicateEnumDisplay (String.ofList (Utf8.decodeLossy first.2.display))) := by
  have inside : first ∈ table.toList.filter (·.2.display == first.2.display) :=
    List.mem_filter.mpr ⟨member, beq_self_eq_true _⟩
  have inside' : second ∈ table.toList.filter (·.2.display == first.2.display) :=
    List.mem_filter.mpr ⟨member', beq_iff_eq.mpr same.symm⟩
  unfold valueOf?
  split
  case h_1 empty =>
    rw [empty] at inside
    cases inside
  case h_2 value label one =>
    rw [one, List.mem_singleton] at inside inside'
    exact absurd (inside.trans inside'.symm) different
  case h_3 => rfl

/-- All that is told of a table follows from which values it lists. -/
theorem holds_of_perm (perm : table.toList.Perm values) : table.Holds table.fids values where
  fids := rfl
  perm := perm
  ascending := table.toList_ascending
  get {value label} := by rw [← perm.mem_iff, mem_toList]
  size := by rw [← perm.length_eq, toList, Std.ExtTreeMap.length_toList, size]
  greatest filled := by
    rcases table.maxValue_cases with ⟨empty, -⟩ | ⟨member, -⟩
    · exact absurd (List.nil_perm.mp (empty ▸ perm)) filled
    · exact (perm.map Prod.fst).mem_iff.mp member
  least_bound _ member := le_maxValue (perm.mem_iff.mpr member)
  no_greatest empty := by
    rcases table.maxValue_cases with ⟨-, zero⟩ | ⟨member, -⟩
    · exact zero
    · subst empty
      rw [perm.eq_nil] at member
      cases member
  unknown empty := valueOf?_unknown fun entry member => empty entry (perm.mem_iff.mp member)
  single entry member only :=
    valueOf?_single (perm.mem_iff.mpr member) fun other inside => only other (perm.mem_iff.mp inside)
  several first member second member' := valueOf?_several (perm.mem_iff.mpr member) (perm.mem_iff.mpr member')

/-- A table that is made of values lists them. -/
theorem toList_perm_of_ofList (made : ofList fids values = .ok table) : table.toList.Perm values := by
  obtain ⟨-, distinct, rfl⟩ := ofList_eq_ok_iff.mp made
  refine (List.perm_ext_iff_of_nodup (toList_nodup _) (List.Nodup.of_map _ distinct)).mpr fun entry => ?_
  rw [mem_toList]
  exact getElem?_insertMany distinct

theorem ofList_perm {others : List (UInt16 × EnumLabel)} (perm : others.Perm values)
    (made : ofList fids values = .ok table) : ofList fids others = .ok table := by
  obtain ⟨filled, distinct, rfl⟩ := ofList_eq_ok_iff.mp made
  have distinct' := (perm.map Prod.fst).nodup_iff.mpr distinct
  refine ofList_eq_ok_iff.mpr ⟨filled, distinct', congrArg (EnumTable.mk fids) ?_⟩
  refine Std.ExtTreeMap.ext_getElem? fun value => Option.ext fun label => ?_
  rw [getElem?_insertMany distinct, getElem?_insertMany distinct', perm.mem_iff]

end EnumTable

end MarketWire
