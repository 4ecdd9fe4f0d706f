import MarketWire.Proofs.Stores

/-! What holds of every dictionary, however it came about.

Definitions stand under their own identifiers, and a field is linked to a table exactly when the table
names it, so that no two tables name the same field.
-/

set_option autoImplicit false

namespace MarketWire.Dictionary

/-! ## Reachable dictionaries -/

inductive Reachable : Dictionary → Prop where
  | empty : Reachable empty
  | call {dictionary : Dictionary} (call : Call) (reachable : Reachable dictionary) :
      Reachable (call.run dictionary)

/-! ## Updates -/

theorem get?_insertField (dictionary : Dictionary) (field : FieldDefinition) (fid : Int16) :
    (dictionary.insertField field).get? fid = if field.fid = fid then some field else dictionary.get? fid := by
  unfold get? insertField
  simp only [Std.ExtTreeMap.getElem?_insert, Std.LawfulEqCmp.compare_eq_iff_eq]

theorem size_insertField {dictionary : Dictionary} {field : FieldDefinition}
    (free : dictionary.get? field.fid = none) : (dictionary.insertField field).size = dictionary.size + 1 := by
  change (dictionary.definitions.insert _ _).size = dictionary.definitions.size + 1
  have absent : dictionary.definitions.contains field.fid = false := by
    rw [Std.ExtTreeMap.contains_eq_isSome_getElem?]
    exact congrArg Option.isSome free
  rw [Std.ExtTreeMap.size_insert, absent]
  rfl

theorem get?_setRipple (dictionary : Dictionary) (fid target other : Int16) :
    (dictionary.setRipple fid target).get? other =
      if fid = other then (dictionary.get? other).map ({ · with rippleTo := target }) else dictionary.get? other := by
  unfold get? setRipple
  simp only [Std.ExtTreeMap.getElem?_modify, Std.LawfulEqCmp.compare_eq_iff_eq]
  split
  case isTrue same => rw [same]
  case isFalse => rfl

theorem acronym_setRipple (dictionary : Dictionary) (fid target other : Int16) :
    ((dictionary.setRipple fid target).get? other).map (·.acronym) = (dictionary.get? other).map (·.acronym) := by
  rw [get?_setRipple]
  split
  · rw [Option.map_map]
    rfl
  · rfl

/-- A definition may be added: it has an identifier and a type, its field is not defined yet, and a
table that refers to the field gives no other acronym. -/
structure Admits (dictionary : Dictionary) (field : FieldDefinition) : Prop where
  fid : field.fid ≠ 0
  wireType : field.wireType ≠ .unknown
  free : dictionary.get? field.fid = none
  acronym : ∀ link ∈ dictionary.links[field.fid]?, link.acronym = "" ∨ link.acronym = field.acronym

theorem addField_ok {dictionary : Dictionary} {field : FieldDefinition}
    (admits : dictionary.Admits field) :
    addField field dictionary = .ok () (dictionary.insertField field) := by
  obtain ⟨fid, wireType, free, acronym⟩ := admits
  unfold addField
  rw [Program.get_bind]
  simp only [if_neg fid, if_neg wireType, free, Option.isSome_none, Bool.false_eq_true, if_false]
  cases linked : dictionary.links[field.fid]? with
  | none => rfl
  | some link =>
    have agrees : ¬ (link.acronym ≠ "" ∧ link.acronym ≠ field.acronym) := by
      rcases acronym link linked with blank | same
      · simp [blank]
      · simp [same]
    simp only [if_neg agrees]
    rfl

theorem addField_error {dictionary : Dictionary} {field : FieldDefinition}
    (refuses : ¬ dictionary.Admits field) :
    ∃ error, addField field dictionary = .error error dictionary := by
  unfold addField
  rw [Program.get_bind]
  -- The tests come one after another, each before any change.
  by_cases fid : field.fid = 0
  · exact ⟨_, by rw [if_pos fid]; rfl⟩
  by_cases wireType : field.wireType = .unknown
  · exact ⟨_, by rw [if_neg fid, if_pos wireType]; rfl⟩
  by_cases taken : (dictionary.get? field.fid).isSome
  · exact ⟨_, by rw [if_neg fid, if_neg wireType, if_pos taken]; rfl⟩
  simp only [if_neg fid, if_neg wireType, if_neg taken]
  cases linked : dictionary.links[field.fid]? with
  | none =>
    refine absurd ⟨fid, wireType, by simpa using taken, ?_⟩ refuses
    simp [linked]
  | some link =>
    by_cases disagrees : link.acronym ≠ "" ∧ link.acronym ≠ field.acronym
    · exact ⟨_, by simp only [if_pos disagrees]; rfl⟩
    · refine absurd ⟨fid, wireType, by simpa using taken, ?_⟩ refuses
      rw [linked]
      rintro _ ⟨⟩
      exact (Decidable.not_and_iff_or_not.mp disagrees).imp Decidable.of_not_not Decidable.of_not_not

/-- A list of references to a new table is sound: it names no field twice and no field that has a
table, and each acronym is that of the field, if both are known. -/
structure Accepts (dictionary : Dictionary) (references : List (Int16 × String)) : Prop where
  distinct : (references.map Prod.fst).Nodup
  unlinked : ∀ reference ∈ references, reference.1 ∉ dictionary.links
  acronyms : ∀ reference ∈ references, ∀ known ∈ dictionary.acronymOf? reference.1,
    reference.2 = "" ∨ known = reference.2

theorem accepts_cons {dictionary : Dictionary} {fid : Int16} {acronym : String}
    {rest : List (Int16 × String)} :
    dictionary.Accepts ((fid, acronym) :: rest) ↔ (∀ reference ∈ rest, reference.1 ≠ fid) ∧
      fid ∉ dictionary.links ∧ (∀ known ∈ dictionary.acronymOf? fid, acronym = "" ∨ known = acronym) ∧
      dictionary.Accepts rest := by
  constructor
  · rintro ⟨distinct, unlinked, acronyms⟩
    obtain ⟨first, others⟩ := List.nodup_cons.mp distinct
    refine ⟨?_, unlinked _ List.mem_cons_self, acronyms _ List.mem_cons_self, others, ?_, ?_⟩
    · exact fun reference member same => first (List.mem_map.mpr ⟨reference, member, same⟩)
    · exact fun reference member => unlinked reference (List.mem_cons_of_mem _ member)
    · exact fun reference member => acronyms reference (List.mem_cons_of_mem _ member)
  · rintro ⟨different, unlinked, agrees, others⟩
    refine ⟨List.nodup_cons.mpr ⟨?_, others.distinct⟩, ?_, ?_⟩
    · intro member
      obtain ⟨reference, member, same⟩ := List.mem_map.mp member
      exact different reference member same
    · exact List.forall_mem_cons.mpr ⟨unlinked, others.unlinked⟩
    · exact List.forall_mem_cons.mpr ⟨agrees, others.acronyms⟩

theorem not_mem_links_of_acronymOf? {dictionary : Dictionary} {fid : Int16}
    (h : dictionary.acronymOf? fid = none) : fid ∉ dictionary.links := by
  unfold acronymOf? at h
  rw [Option.or_eq_none_iff, Option.map_eq_none_iff, Option.map_eq_none_iff] at h
  rw [Std.ExtTreeMap.mem_iff_isSome_getElem?, h.2]
  exact Bool.false_ne_true

theorem referenceError?_eq_none_iff {dictionary : Dictionary} {references : List (Int16 × String)}
    {before : Std.ExtTreeSet Int16} :
    dictionary.referenceError? before references = none ↔
      dictionary.Accepts references ∧ ∀ reference ∈ references, reference.1 ∉ before := by
  induction references generalizing before with
  | nil => exact ⟨fun _ => ⟨⟨List.nodup_nil, by simp, by simp⟩, by simp⟩, fun _ => rfl⟩
  | cons reference rest ih =>
    obtain ⟨fid, acronym⟩ := reference
    -- The fields that were seen grow by one with each reference.
    have later : (∀ reference ∈ rest, reference.1 ∉ before.insert fid) ↔
        (∀ reference ∈ rest, reference.1 ≠ fid) ∧ ∀ reference ∈ rest, reference.1 ∉ before := by
      simp only [Std.ExtTreeSet.mem_insert, Std.LawfulEqCmp.compare_eq_iff_eq, not_or, ← forall_and]
      constructor
      · intro h reference member
        exact ⟨Ne.symm (h reference member).1, (h reference member).2⟩
      · intro h reference member
        exact ⟨Ne.symm (h reference member).1, (h reference member).2⟩
    rw [referenceError?, accepts_cons, List.forall_mem_cons]
    by_cases taken : fid ∈ before
    · simp [taken]
    rw [if_neg taken]
    cases known : dictionary.acronymOf? fid with
    | none =>
      have unlinked := not_mem_links_of_acronymOf? known
      simp only [ih, later]
      constructor
      · exact fun ⟨others, different, fresh⟩ =>
          ⟨⟨different, unlinked, by simp, others⟩, taken, fresh⟩
      · exact fun ⟨⟨different, _, _, others⟩, _, fresh⟩ => ⟨others, different, fresh⟩
    | some own =>
      by_cases disagrees : acronym ≠ "" ∧ own ≠ acronym
      · simp [disagrees]
      by_cases linked : fid ∈ dictionary.links
      · simp [linked, disagrees]
      have agrees := (Decidable.not_and_iff_or_not.mp disagrees).imp Decidable.of_not_not
        Decidable.of_not_not
      simp only [if_neg disagrees, if_neg linked, ih, later]
      constructor
      · exact fun ⟨others, different, fresh⟩ =>
          ⟨⟨different, linked, fun _ same => Option.some.inj same ▸ agrees, others⟩, taken, fresh⟩
      · exact fun ⟨⟨different, _, _, others⟩, _, fresh⟩ => ⟨others, different, fresh⟩

theorem accepts_iff {dictionary : Dictionary} {references : List (Int16 × String)} :
    dictionary.Accepts references ↔ dictionary.referenceError? ∅ references = none := by
  rw [referenceError?_eq_none_iff]
  exact ⟨fun accepts => ⟨accepts, by simp⟩, And.left⟩

theorem addTable_ok {dictionary : Dictionary} {references : List (Int16 × String)}
    {values : List (UInt16 × EnumLabel)} {table : EnumTable}
    (made : EnumTable.ofList (references.map Prod.fst) values = .ok table)
    (accepts : dictionary.Accepts references) :
    addTable references values dictionary = .ok () (dictionary.insertTable references table) := by
  unfold addTable
  rw [made]
  dsimp only
  rw [Program.get_bind, accepts_iff.mp accepts]
  rfl

/-- A table is added, or nothing changes. -/
theorem addTable_cases (dictionary : Dictionary) (references : List (Int16 × String))
    (values : List (UInt16 × EnumLabel)) :
    (∃ table, EnumTable.ofList (references.map Prod.fst) values = .ok table ∧
      dictionary.Accepts references ∧
      addTable references values dictionary = .ok () (dictionary.insertTable references table)) ∨
    ∃ error, addTable references values dictionary = .error error dictionary := by
  cases made : EnumTable.ofList (references.map Prod.fst) values with
  | error error =>
    refine .inr ⟨error, ?_⟩
    unfold addTable
    rw [made]
    rfl
  | ok table =>
    cases refused : dictionary.referenceError? ∅ references with
    | none =>
      have accepts := accepts_iff.mpr refused
      exact .inl ⟨table, rfl, accepts, addTable_ok made accepts⟩
    | some error =>
      refine .inr ⟨error, ?_⟩
      unfold addTable
      rw [made]
      dsimp only
      rw [Program.get_bind, refused]
      rfl

/-! ## Successes -/

section
variable {α : Type} {update : Update α} {dictionary after : Dictionary} {value : α}

theorem onLine_eq_ok {line : Nat} :
    onLine line update dictionary = .ok value after ↔ update dictionary = .ok value after := by
  unfold onLine
  cases update dictionary <;> simp

theorem transaction_eq_ok : transaction update dictionary = .ok value after ↔ update dictionary = .ok value after := by
  unfold transaction
  cases update dictionary <;> simp

theorem transaction_error {error : DictionaryError} (h : update dictionary = .error error after) :
    transaction update dictionary = .error error dictionary := by
  unfold transaction
  rw [h]

end

/-! ## Ids -/

/-- An id is refused, or changes nothing, or is adopted by a dictionary that has none or has it already. -/
theorem checkId_cases (dictionary : Dictionary) (id : Int32) (adopt : Bool) :
    (∃ error, checkId id adopt dictionary = .error error dictionary) ∨
      checkId id adopt dictionary = .ok () dictionary ∨
      (dictionary.id = 0 ∨ dictionary.id = id) ∧ checkId id adopt dictionary = .ok () { dictionary with id } := by
  unfold checkId
  rw [Program.get_bind]
  by_cases refused : id ≠ 0 ∧ dictionary.id ≠ 0 ∧ id ≠ dictionary.id
  · exact .inl ⟨_, by rw [if_pos refused]; rfl⟩
  rw [if_neg refused]
  by_cases adopted : adopt ∧ id ≠ 0
  · refine .inr (.inr ⟨?_, by rw [if_pos adopted]; rfl⟩)
    by_cases unknown : dictionary.id = 0
    · exact .inl unknown
    · exact .inr (Decidable.byContradiction fun different =>
        refused ⟨adopted.2, unknown, fun same => different same.symm⟩)
  · exact .inr (.inl (by rw [if_neg adopted]; rfl))

/-! ## Invariants -/

structure TagInvariant (holds : Dictionary → Prop) : Prop where
  id : ∀ {dictionary : Dictionary}, holds dictionary → ∀ id, dictionary.id = 0 ∨ dictionary.id = id →
    holds { dictionary with id }
  fieldTags : ∀ {dictionary : Dictionary}, holds dictionary →
    ∀ fieldTags, FieldTagsKept dictionary.fieldTags fieldTags → holds { dictionary with fieldTags }
  enumTags : ∀ {dictionary : Dictionary}, holds dictionary →
    ∀ enumTags, EnumTagsKept dictionary.enumTags enumTags → holds { dictionary with enumTags }

/-- What survives all that adds to a dictionary. Only fields that are new get targets to ripple to. -/
structure UpdateInvariant (holds : Dictionary → Prop) (New : Int16 → Prop) : Prop extends TagInvariant holds where
  new : ∀ {dictionary field}, holds dictionary → dictionary.Admits field → New field.fid
  field : ∀ {dictionary field}, holds dictionary → dictionary.Admits field →
    holds (dictionary.insertField field)
  table : ∀ {dictionary references values table}, holds dictionary →
    EnumTable.ofList (references.map Prod.fst) values = .ok table → dictionary.Accepts references →
    holds (dictionary.insertTable references table)
  ripple : ∀ {dictionary}, holds dictionary → ∀ {fid}, New fid → ∀ target,
    holds (dictionary.setRipple fid target)

/-- What holds of the empty dictionary and survives each change of a dictionary. -/
structure Invariant (holds : Dictionary → Prop) : Prop where
  empty : holds empty
  names : ∀ {dictionary}, holds dictionary → ∀ keep, holds (dictionary.withNames keep)
  field : ∀ {dictionary field}, holds dictionary → dictionary.Admits field →
    holds (dictionary.insertField field)
  table : ∀ {dictionary references values table}, holds dictionary →
    EnumTable.ofList (references.map Prod.fst) values = .ok table → dictionary.Accepts references →
    holds (dictionary.insertTable references table)
  ripple : ∀ {dictionary}, holds dictionary → ∀ fid target, holds (dictionary.setRipple fid target)
  id : ∀ {dictionary}, holds dictionary → ∀ id, holds { dictionary with id }
  fieldTags : ∀ {dictionary}, holds dictionary → ∀ fieldTags, holds { dictionary with fieldTags }
  enumTags : ∀ {dictionary}, holds dictionary → ∀ enumTags, holds { dictionary with enumTags }

theorem Invariant.updates {holds : Dictionary → Prop} (invariant : Invariant holds) :
    UpdateInvariant holds fun _ => True where
  id held id _ := invariant.id held id
  fieldTags held tags _ := invariant.fieldTags held tags
  enumTags held tags _ := invariant.enumTags held tags
  new _ _ := trivial
  field := invariant.field
  table := invariant.table
  ripple held _ _ target := invariant.ripple held _ target

namespace TagInvariant

variable {holds : Dictionary → Prop} (tagged : TagInvariant holds)
include tagged

theorem checkId_keeps (id : Int32) (adopt : Bool) : Program.Keeps holds (checkId id adopt) := by
  intro dictionary held
  unfold Program.after
  rcases checkId_cases dictionary id adopt with ⟨error, failed⟩ | same | ⟨free, adopted⟩
  · rw [failed]
    exact held
  · rw [same]
    exact held
  · rw [adopted]
    exact tagged.id held id free

theorem setFieldTags_keeps {change : FieldTags → FieldTags} (kept : ∀ tags, FieldTagsKept tags (change tags)) :
    Program.Keeps holds (setFieldTags change) :=
  .modify fun dictionary held => tagged.fieldTags held _ (kept dictionary.fieldTags)

theorem setEnumTags_keeps {change : EnumTags → EnumTags} (kept : ∀ tags, EnumTagsKept tags (change tags)) :
    Program.Keeps holds (setEnumTags change) :=
  .modify fun dictionary held => tagged.enumTags held _ (kept dictionary.enumTags)

theorem alike : TagsAlike (Program.Kept holds) where
  id id adopt := (tagged.checkId_keeps id adopt).agree
  fieldTags kept := (tagged.setFieldTags_keeps kept).agree
  enumTags kept := (tagged.setEnumTags_keeps kept).agree

end TagInvariant

namespace UpdateInvariant

variable {holds : Dictionary → Prop} {New : Int16 → Prop} (invariant : UpdateInvariant holds New)
include invariant

theorem addField_gives (field : FieldDefinition) :
    Program.Gives holds (fun _ => New field.fid) (addField field) := by
  intro dictionary held
  unfold Program.after
  by_cases admits : dictionary.Admits field
  · rw [addField_ok admits]
    exact ⟨invariant.field held admits, fun _ _ _ => invariant.new held admits⟩
  · obtain ⟨error, failed⟩ := addField_error admits
    rw [failed]
    exact ⟨held, nofun⟩

theorem addTable_keeps (references : List (Int16 × String)) (values : List (UInt16 × EnumLabel)) :
    Program.Keeps holds (addTable references values) := by
  intro dictionary held
  unfold Program.after
  rcases addTable_cases dictionary references values with
    ⟨table, made, accepts, added⟩ | ⟨error, failed⟩
  · rw [added]
    exact invariant.table held made accepts
  · rw [failed]
    exact held

theorem resolveRipples_keeps {ripples : List (Int16 × String)} (new : ∀ ripple ∈ ripples, New ripple.1)
    {dictionary : Dictionary} (held : holds dictionary) : holds (resolveRipples ripples dictionary) := by
  unfold resolveRipples
  refine List.foldlRecOn ripples _ held fun dictionary held ripple member => ?_
  dsimp only
  split
  · exact invariant.ripple held (new ripple member) _
  · exact held

/-- What files and parts do to a dictionary they do by its operations, so what these keep holds behind all calls. -/
theorem alike : UpdatesAlike (Program.Kept holds) New where
  toTagsAlike := invariant.toTagInvariant.alike
  field field := Program.relates_kept_iff.mpr (invariant.addField_gives field)
  table references values := (invariant.addTable_keeps references values).agree
  ripples new := by
    rintro dictionary _ ⟨rfl, held⟩
    exact ⟨rfl, invariant.resolveRipples_keeps new held⟩

theorem run_keeps {call : Call} (adds : call.adds) {dictionary : Dictionary} (held : holds dictionary) :
    holds (call.run dictionary) :=
  (invariant.alike.run adds ⟨rfl, held⟩).2

end UpdateInvariant

section
variable {holds : Dictionary → Prop} (invariant : Invariant holds)
include invariant

/-- No call breaks an invariant, whether it succeeds or fails. -/
theorem Invariant.run_keeps (call : Call) {dictionary : Dictionary} (held : holds dictionary) :
    holds (call.run dictionary) := by
  by_cases adds : call.adds
  · exact invariant.updates.run_keeps adds held
  cases call with
  | withNames keep => exact invariant.names held keep
  | clear => exact invariant.names invariant.empty _
  | _ => exact absurd rfl adds

theorem Reachable.keeps {dictionary : Dictionary} (reachable : Reachable dictionary) :
    holds dictionary := by
  induction reachable with
  | empty => exact invariant.empty
  | call call _ ih => exact invariant.run_keeps call ih

end

end MarketWire.Dictionary
