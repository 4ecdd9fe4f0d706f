import MarketWire.Proofs.Links

/-! Names that are kept lead from acronyms to definitions.

There is a name for each acronym that a definition has, and it leads to a definition with that acronym. Of
several definitions with one acronym the name leads to that which had it first.
-/

set_option autoImplicit false

namespace MarketWire.Dictionary

structure NamedBy (dictionary : Dictionary) (names : Std.ExtTreeMap String Int16) : Prop where
  leads : ∀ {acronym fid}, names[acronym]? = some fid →
    ∃ field, dictionary.get? fid = some field ∧ field.acronym = acronym
  covers : ∀ {fid field}, dictionary.get? fid = some field → field.acronym ∈ names

/-- The names that are kept, if any, are those of the definitions. -/
def IsIndexed (dictionary : Dictionary) : Prop :=
  ∀ {names}, dictionary.names = some names → dictionary.NamedBy names

/-! ## Collecting names -/

theorem getElem?_insertName (names : Std.ExtTreeMap String Int16) (field : FieldDefinition) (acronym : String) :
    (names.insertIfNew field.acronym field.fid)[acronym]? =
      names[acronym]?.or (if field.acronym = acronym then some field.fid else none) := by
  simp only [Std.ExtTreeMap.getElem?_insertIfNew, Std.LawfulEqCmp.compare_eq_iff_eq,
    Std.ExtTreeMap.mem_iff_isSome_getElem?]
  by_cases same : field.acronym = acronym
  · rw [same]
    cases names[acronym]? <;> simp
  · simp [same]

/-- Names lead where they led before, or else to the first field with an acronym. -/
theorem getElem?_foldl_insertIfNew (fields : List FieldDefinition) (names : Std.ExtTreeMap String Int16)
    (acronym : String) :
    (fields.foldl (fun names field => names.insertIfNew field.acronym field.fid) names)[acronym]? =
      names[acronym]?.or ((fields.find? (·.acronym == acronym)).map (·.fid)) := by
  induction fields generalizing names with
  | nil => simp
  | cons field rest ih =>
    rw [List.foldl_cons, ih, getElem?_insertName, Option.or_assoc, List.find?_cons]
    by_cases same : field.acronym = acronym
    · rw [if_pos same, beq_iff_eq.mpr same]
      rfl
    · rw [if_neg same, beq_eq_false_iff_ne.mpr same, Option.none_or]

theorem getElem?_buildNames (dictionary : Dictionary) (acronym : String) :
    dictionary.buildNames[acronym]? = (dictionary.toList.find? (·.acronym == acronym)).map (·.fid) := by
  unfold Dictionary.buildNames
  rw [getElem?_foldl_insertIfNew, Std.ExtTreeMap.getElem?_empty, Option.none_or]

theorem WellFormed.buildNames {dictionary : Dictionary} (wellFormed : dictionary.WellFormed) :
    dictionary.NamedBy dictionary.buildNames where
  leads {acronym fid} found := by
    rw [getElem?_buildNames] at found
    obtain ⟨field, first, rfl⟩ := Option.map_eq_some_iff.mp found
    have same := List.find?_some first
    exact ⟨field, wellFormed.mem_toList.mp (List.mem_of_find?_eq_some first), beq_iff_eq.mp same⟩
  covers {fid field} found := by
    obtain ⟨rfl, -⟩ := wellFormed.defined fid field found
    rw [Std.ExtTreeMap.mem_iff_isSome_getElem?, getElem?_buildNames, Option.isSome_map, List.find?_isSome]
    exact ⟨field, wellFormed.mem_toList.mpr found, beq_self_eq_true _⟩

theorem WellFormed.fid_byAcronym? {dictionary : Dictionary} (wellFormed : dictionary.WellFormed)
    (indexed : dictionary.IsIndexed) (acronym : String) :
    (dictionary.byAcronym? acronym).map (·.fid) = (dictionary.names.getD dictionary.buildNames)[acronym]? := by
  unfold byAcronym?
  cases kept : dictionary.names with
  | none => exact (getElem?_buildNames dictionary acronym).symm
  | some names =>
    dsimp only [Option.getD_some]
    cases found : names[acronym]? with
    | none => rfl
    | some fid =>
      obtain ⟨field, defined, -⟩ := (indexed kept).leads found
      obtain ⟨rfl, -⟩ := wellFormed.defined fid field defined
      exact congrArg (Option.map (·.fid)) defined

theorem WellFormed.mem_acronyms {dictionary : Dictionary} (wellFormed : dictionary.WellFormed) {fid : Int16}
    {acronym : String} : (fid, acronym) ∈ dictionary.toList.map (fun field => (field.fid, field.acronym)) ↔
      (dictionary.get? fid).map (·.acronym) = some acronym := by
  rw [List.mem_map, Option.map_eq_some_iff]
  constructor
  · rintro ⟨field, member, same⟩
    obtain ⟨rfl, rfl⟩ := Prod.mk.inj same
    exact ⟨field, wellFormed.mem_toList.mp member, rfl⟩
  · rintro ⟨field, defined, rfl⟩
    obtain ⟨rfl, -⟩ := wellFormed.defined fid field defined
    exact ⟨field, wellFormed.mem_toList.mpr defined, rfl⟩

/-! ## Updates -/

theorem NamedBy.of_definitions {dictionary other : Dictionary} {names : Std.ExtTreeMap String Int16}
    (named : dictionary.NamedBy names) (same : other.definitions = dictionary.definitions) : other.NamedBy names := by
  have agree : other.get? = dictionary.get? := by
    unfold get?
    rw [same]
  exact ⟨fun found => agree ▸ named.leads found, fun found => named.covers (agree ▸ found)⟩

theorem NamedBy.insertField {dictionary : Dictionary} {names : Std.ExtTreeMap String Int16}
    (named : dictionary.NamedBy names) {field : FieldDefinition} (free : dictionary.get? field.fid = none) :
    (dictionary.insertField field).NamedBy (names.insertIfNew field.acronym field.fid) where
  leads {acronym fid} found := by
    simp only [Std.ExtTreeMap.getElem?_insertIfNew, Std.LawfulEqCmp.compare_eq_iff_eq] at found
    simp only [get?_insertField]
    split at found
    case isTrue added =>
      cases found
      exact ⟨field, if_pos rfl, added.1⟩
    case isFalse =>
      obtain ⟨other, defined, same⟩ := named.leads found
      have different : field.fid ≠ fid := by
        rintro rfl
        rw [free] at defined
        cases defined
      exact ⟨other, by rw [if_neg different, defined], same⟩
  covers {fid other} found := by
    rw [get?_insertField] at found
    rw [Std.ExtTreeMap.mem_insertIfNew, Std.LawfulEqCmp.compare_eq_iff_eq]
    split at found
    case isTrue =>
      cases found
      exact .inl rfl
    case isFalse => exact .inr (named.covers found)

theorem NamedBy.setRipple {dictionary : Dictionary} {names : Std.ExtTreeMap String Int16}
    (named : dictionary.NamedBy names) (fid target : Int16) : (dictionary.setRipple fid target).NamedBy names where
  leads {acronym other} found := by
    obtain ⟨field, defined, same⟩ := named.leads found
    refine Option.map_eq_some_iff.mp ((acronym_setRipple dictionary fid target other).trans ?_)
    rw [defined, Option.map_some, same]
  covers {other field} found := by
    have kept := acronym_setRipple dictionary fid target other
    rw [found, Option.map_some, eq_comm, Option.map_eq_some_iff] at kept
    obtain ⟨before, defined, same⟩ := kept
    exact same ▸ named.covers defined

theorem isIndexed_invariant : Invariant fun dictionary => dictionary.WellFormed ∧ dictionary.IsIndexed where
  empty := by
    refine ⟨wellFormed_invariant.empty, fun kept => ?_⟩
    cases kept
    refine ⟨fun found => ?_, fun found => ?_⟩
    all_goals cases Std.ExtTreeMap.getElem?_empty.symm.trans found
  names {dictionary} held keep := by
    refine ⟨wellFormed_invariant.names held.1 keep, fun kept => ?_⟩
    cases keep
    · cases kept
    · cases kept
      exact held.1.buildNames.of_definitions rfl
  field {dictionary field} held admits := by
    refine ⟨wellFormed_invariant.field held.1 admits, fun kept => ?_⟩
    obtain ⟨names, before, rfl⟩ := Option.map_eq_some_iff.mp kept
    exact (held.2 before).insertField admits.free
  table held made accepts :=
    ⟨wellFormed_invariant.table held.1 made accepts, fun kept => (held.2 kept).of_definitions rfl⟩
  ripple held fid target :=
    ⟨wellFormed_invariant.ripple held.1 fid target, fun kept => (held.2 kept).setRipple fid target⟩
  id held id := ⟨wellFormed_invariant.id held.1 id, fun kept => (held.2 kept).of_definitions rfl⟩
  fieldTags held tags :=
    ⟨wellFormed_invariant.fieldTags held.1 tags, fun kept => (held.2 kept).of_definitions rfl⟩
  enumTags held tags :=
    ⟨wellFormed_invariant.enumTags held.1 tags, fun kept => (held.2 kept).of_definitions rfl⟩

end MarketWire.Dictionary
