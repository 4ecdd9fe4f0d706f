import MarketWire.Proofs.Names

/-! Acronyms that several fields have.

Names that are kept as fields come lead to the field that had an acronym first. Without names, and with names that are
collected anew, the field with the lowest identifier is found. So the answers differ unless of all fields with an
acronym the lowest one came first.
-/

set_option autoImplicit false

namespace MarketWire

/-! ## Changes -/

/-- What becomes of a dictionary is put together from such changes; those of definitions and tables may fail. -/
inductive Change where
  | addField (field : FieldDefinition)
  | addTable (references : List (Int16 × String)) (values : List (UInt16 × EnumLabel))
  | setRipple (fid target : Int16)
  | withNames (keep : Bool)
  | clear
  | setId (id : Int32)
  | setFieldTags (tags : FieldTags)
  | setEnumTags (tags : EnumTags)

namespace Change

def onDictionary (dictionary : Dictionary) : Change → Dictionary
  | addField field => Program.after (Dictionary.addField field) dictionary
  | addTable references values => Program.after (Dictionary.addTable references values) dictionary
  | setRipple fid target => dictionary.setRipple fid target
  | withNames keep => dictionary.withNames keep
  | clear => dictionary.clear
  | setId id => { dictionary with id }
  | setFieldTags fieldTags => { dictionary with fieldTags }
  | setEnumTags enumTags => { dictionary with enumTags }

def dictionary (changes : List Change) : Dictionary := changes.foldl onDictionary .empty

theorem dictionary_append (changes : List Change) (change : Change) :
    dictionary (changes ++ [change]) = change.onDictionary (dictionary changes) :=
  List.foldl_append

theorem onDictionary_addField {dictionary : Dictionary} {field : FieldDefinition} (admits : dictionary.Admits field) :
    onDictionary dictionary (.addField field) = dictionary.insertField field := by
  change Program.after (Dictionary.addField field) dictionary = _
  unfold Program.after
  rw [Dictionary.addField_ok admits]

theorem onDictionary_addTable {dictionary : Dictionary} {references : List (Int16 × String)}
    {values : List (UInt16 × EnumLabel)} {table : EnumTable}
    (made : EnumTable.ofList (references.map Prod.fst) values = .ok table) (accepts : dictionary.Accepts references) :
    onDictionary dictionary (.addTable references values) = dictionary.insertTable references table := by
  change Program.after (Dictionary.addTable references values) dictionary = _
  unfold Program.after
  rw [Dictionary.addTable_ok made accepts]

/-! ## Arrivals -/

def adds : Change → Bool
  | withNames _ | clear => false
  | _ => true

def arrival? (dictionary : Dictionary) : Change → Option FieldDefinition
  | addField field => if Program.succeeds (Dictionary.addField field) dictionary then some field else none
  | _ => none

def arrivals (dictionary : Dictionary) : List Change → List FieldDefinition
  | [] => []
  | change :: rest => (arrival? dictionary change).toList ++ arrivals (change.onDictionary dictionary) rest

theorem arrival?_admits {dictionary : Dictionary} {field : FieldDefinition} (admits : dictionary.Admits field) :
    arrival? dictionary (.addField field) = some field :=
  if_pos (Program.succeeds_of_ok (Dictionary.addField_ok admits))

theorem onDictionary_refuses {dictionary : Dictionary} {field : FieldDefinition}
    (refuses : ¬ dictionary.Admits field) : arrival? dictionary (.addField field) = none ∧
      onDictionary dictionary (.addField field) = dictionary := by
  obtain ⟨error, failed⟩ := Dictionary.addField_error refuses
  refine ⟨if_neg ?_, ?_⟩
  · unfold Program.succeeds
    rw [failed]
    exact Bool.false_ne_true
  · change Program.after (Dictionary.addField field) dictionary = _
    unfold Program.after
    rw [failed]

end Change

namespace Dictionary

/-- The definitions of a dictionary came in some order, with their acronyms, and its names were kept meanwhile. -/
structure Recorded (dictionary : Dictionary) (arrived : List FieldDefinition) : Prop where
  names : dictionary.names =
    some (arrived.foldl (fun names field => names.insertIfNew field.acronym field.fid) ∅)
  defined : ∀ {fid acronym}, (∃ field, dictionary.get? fid = some field ∧ field.acronym = acronym) ↔
    ∃ field ∈ arrived, field.fid = fid ∧ field.acronym = acronym

namespace Recorded

variable {dictionary : Dictionary} {arrived : List FieldDefinition} (recorded : dictionary.Recorded arrived)

theorem empty : Recorded .empty [] := by
  refine ⟨rfl, fun {fid acronym} => ?_⟩
  constructor
  · rintro ⟨field, found, -⟩
    cases Std.ExtTreeMap.getElem?_empty.symm.trans found
  · rintro ⟨field, member, -⟩
    cases member

include recorded

theorem insertField {field : FieldDefinition} (free : dictionary.get? field.fid = none) :
    (dictionary.insertField field).Recorded (arrived ++ [field]) where
  names := by
    unfold Dictionary.insertField
    rw [recorded.names, List.foldl_append]
    rfl
  defined {fid acronym} := by
    simp only [get?_insertField, List.mem_append, List.mem_singleton, or_and_right, exists_or, exists_eq_left]
    rw [← recorded.defined]
    by_cases same : field.fid = fid
    · subst same
      simp [free]
    · simp [same]

theorem setRipple (fid target : Int16) : (dictionary.setRipple fid target).Recorded arrived where
  names := recorded.names
  defined {other acronym} := by
    rw [← recorded.defined, ← Option.map_eq_some_iff, ← Option.map_eq_some_iff, acronym_setRipple]

theorem onDictionary {change : Change} (adds : change.adds) :
    (change.onDictionary dictionary).Recorded (arrived ++ (change.arrival? dictionary).toList) := by
  cases change with
  | addField field =>
    by_cases admits : dictionary.Admits field
    · rw [Change.onDictionary_addField admits, Change.arrival?_admits admits]
      exact recorded.insertField admits.free
    · obtain ⟨missing, same⟩ := Change.onDictionary_refuses admits
      rw [same, missing, Option.toList_none, List.append_nil]
      exact recorded
  | withNames _ | clear => cases adds
  | _ => ?_
  -- Nothing else adds a definition.
  all_goals
    change Recorded _ (arrived ++ [])
    rw [List.append_nil]
  case addTable references values =>
    change (Program.after (addTable references values) dictionary).Recorded arrived
    unfold Program.after
    rcases addTable_cases dictionary references values with ⟨table, -, -, added⟩ | ⟨error, failed⟩
    · rw [added]
      exact ⟨recorded.names, recorded.defined⟩
    · rw [failed]
      exact recorded
  case setRipple fid target => exact recorded.setRipple fid target
  all_goals exact ⟨recorded.names, recorded.defined⟩

theorem foldl {changes : List Change} (adds : ∀ change ∈ changes, change.adds) :
    (changes.foldl Change.onDictionary dictionary).Recorded (arrived ++ Change.arrivals dictionary changes) := by
  induction changes generalizing dictionary arrived with
  | nil =>
    rw [Change.arrivals, List.append_nil]
    exact recorded
  | cons change rest ih =>
    obtain ⟨first, others⟩ := List.forall_mem_cons.mp adds
    rw [Change.arrivals, ← List.append_assoc]
    exact ih (recorded.onDictionary first) others

end Recorded

/-! ## Lookups -/

theorem WellFormed.byAcronym?_withNames {dictionary : Dictionary} (wellFormed : dictionary.WellFormed)
    (acronym : String) :
    (dictionary.withNames true).byAcronym? acronym = (dictionary.withNames false).byAcronym? acronym := by
  change dictionary.buildNames[acronym]?.bind dictionary.get? = dictionary.toList.find? (·.acronym == acronym)
  rw [getElem?_buildNames]
  cases found : dictionary.toList.find? (·.acronym == acronym) with
  | none => rfl
  | some field => exact wellFormed.mem_toList.mp (List.mem_of_find?_eq_some found)

/-- Without names the lowest field with an acronym is found. -/
theorem WellFormed.byAcronym?_eq_some_iff {dictionary : Dictionary} (wellFormed : dictionary.WellFormed)
    {acronym : String} {field : FieldDefinition} :
    (dictionary.withNames false).byAcronym? acronym = some field ↔
      dictionary.get? field.fid = some field ∧ field.acronym = acronym ∧
        ∀ fid other, dictionary.get? fid = some other → other.acronym = acronym → field.fid ≤ fid := by
  have lowest {first : FieldDefinition} (found : dictionary.toList.find? (·.acronym == acronym) = some first) :
      dictionary.get? first.fid = some first ∧ first.acronym = acronym ∧
        ∀ fid other, dictionary.get? fid = some other → other.acronym = acronym → first.fid ≤ fid := by
    obtain ⟨same, before, behind, divided, others⟩ := List.find?_eq_some_iff_append.mp found
    refine ⟨wellFormed.mem_toList.mp (List.mem_of_find?_eq_some found), beq_iff_eq.mp same, ?_⟩
    intro fid other defined alike
    obtain ⟨rfl, -⟩ := wellFormed.defined fid other defined
    have member := wellFormed.mem_toList.mpr defined
    have ascending := wellFormed.toList_ascending
    rw [divided] at member ascending
    rcases List.mem_append.mp member with early | late
    · have different := others other early
      rw [beq_iff_eq.mpr alike] at different
      cases different
    · rcases List.mem_cons.mp late with rfl | late
      · exact Int16.le_refl _
      · exact Int16.le_of_lt (List.rel_of_pairwise_cons (List.pairwise_append.mp ascending).2.1 late)
  change dictionary.toList.find? (·.acronym == acronym) = some field ↔ _
  constructor
  · exact lowest
  · rintro ⟨defined, same, least⟩
    have known : (dictionary.toList.find? (·.acronym == acronym)).isSome :=
      List.find?_isSome.mpr ⟨field, wellFormed.mem_toList.mpr defined, beq_iff_eq.mpr same⟩
    obtain ⟨first, found⟩ := Option.isSome_iff_exists.mp known
    obtain ⟨defined', same', least'⟩ := lowest found
    have one : first.fid = field.fid := Int16.le_antisymm (least' _ _ defined same) (least _ _ defined' same')
    rw [found, ← defined', one, defined]

namespace Recorded

variable {dictionary : Dictionary} {arrived : List FieldDefinition} (recorded : dictionary.Recorded arrived)
  (wellFormed : dictionary.WellFormed) (acronym : String)
include recorded wellFormed

theorem byAcronym?_kept :
    arrived.find? (·.acronym == acronym) = none ∧ dictionary.byAcronym? acronym = none ∨
    ∃ first field, arrived.find? (·.acronym == acronym) = some first ∧ dictionary.byAcronym? acronym = some field ∧
      dictionary.get? first.fid = some field ∧ field.fid = first.fid ∧ field.acronym = acronym := by
  have led : dictionary.byAcronym? acronym =
      ((arrived.find? (·.acronym == acronym)).map (·.fid)).bind dictionary.get? := by
    unfold byAcronym?
    rw [recorded.names]
    dsimp only
    rw [getElem?_foldl_insertIfNew, Std.ExtTreeMap.getElem?_empty, Option.none_or]
  cases found : arrived.find? (·.acronym == acronym) with
  | none =>
    rw [found] at led
    exact .inl ⟨rfl, led⟩
  | some first =>
    rw [found] at led
    have same := List.find?_some found
    obtain ⟨field, defined, alike⟩ := recorded.defined.mpr
      ⟨first, List.mem_of_find?_eq_some found, rfl, beq_iff_eq.mp same⟩
    exact .inr ⟨first, field, rfl, led.trans defined, defined, (wellFormed.defined _ _ defined).1, alike⟩

/-- The answers are the same exactly if of the fields with an acronym the lowest one came first. -/
theorem byAcronym?_eq_iff : dictionary.byAcronym? acronym = (dictionary.withNames false).byAcronym? acronym ↔
    ∀ first ∈ arrived.find? (·.acronym == acronym), ∀ other ∈ arrived, other.acronym = acronym →
      first.fid ≤ other.fid := by
  rcases recorded.byAcronym?_kept wellFormed acronym with
    ⟨unfound, missing⟩ | ⟨first, field, found, led, defined, same, alike⟩
  · rw [missing, unfound]
    refine iff_of_true ?_ (by simp)
    cases scanned : (dictionary.withNames false).byAcronym? acronym with
    | none => rfl
    | some field =>
      obtain ⟨defined, same, -⟩ := wellFormed.byAcronym?_eq_some_iff.mp scanned
      obtain ⟨other, member, -, alike⟩ := recorded.defined.mp ⟨field, defined, same⟩
      exact absurd (beq_iff_eq.mpr alike) (List.find?_eq_none.mp unfound other member)
  · rw [led, found, eq_comm, wellFormed.byAcronym?_eq_some_iff, same]
    constructor
    · rintro ⟨-, -, least⟩ _ ⟨⟩ other member alike
      obtain ⟨held, defined', alike'⟩ := recorded.defined.mpr ⟨other, member, rfl, alike⟩
      exact least _ held defined' alike'
    · intro least
      refine ⟨defined, alike, fun fid other defined' alike' => ?_⟩
      obtain ⟨held, member, rfl, alike⟩ := recorded.defined.mp ⟨other, defined', alike'⟩
      exact least first rfl held member alike

end Recorded

end Dictionary

/-! ## Histories -/

namespace Change

structure IsHistory (changes : List Change) (dictionary : Dictionary) : Prop where
  adds : ∀ change ∈ changes, change.adds
  makes : Change.dictionary changes = dictionary

theorem IsHistory.append {changes : List Change} {dictionary : Dictionary} (history : IsHistory changes dictionary)
    (change : Change) (adds : change.adds) : IsHistory (changes ++ [change]) (change.onDictionary dictionary) := by
  obtain ⟨adds', rfl⟩ := history
  refine ⟨fun other member => ?_, dictionary_append changes change⟩
  rcases List.mem_append.mp member with before | last
  · exact adds' other before
  · exact List.mem_singleton.mp last ▸ adds

theorem history_invariant :
    Dictionary.UpdateInvariant (fun dictionary => ∃ changes, IsHistory changes dictionary) fun _ => True where
  new _ _ := trivial
  field {_ field} held admits := by
    obtain ⟨changes, history⟩ := held
    exact ⟨_, onDictionary_addField admits ▸ history.append (.addField field) rfl⟩
  table {_ references values _} held made accepts := by
    obtain ⟨changes, history⟩ := held
    exact ⟨_, onDictionary_addTable made accepts ▸ history.append (.addTable references values) rfl⟩
  ripple held fid _ target := by
    obtain ⟨changes, history⟩ := held
    exact ⟨_, history.append (.setRipple fid target) rfl⟩
  id held id _ := by
    obtain ⟨changes, history⟩ := held
    exact ⟨_, history.append (.setId id) rfl⟩
  fieldTags held tags _ := by
    obtain ⟨changes, history⟩ := held
    exact ⟨_, history.append (.setFieldTags tags) rfl⟩
  enumTags held tags _ := by
    obtain ⟨changes, history⟩ := held
    exact ⟨_, history.append (.setEnumTags tags) rfl⟩

theorem exists_history {calls : List Dictionary.Call} (adds : ∀ call ∈ calls, call.adds) :
    ∃ changes, IsHistory changes (calls.foldl Dictionary.Call.run .empty) := by
  have start : ∃ changes, IsHistory changes .empty := ⟨[], List.forall_mem_nil _, rfl⟩
  exact List.foldlRecOn (motive := fun result => ∃ changes, IsHistory changes result) calls Dictionary.Call.run start
    fun _ held call member => history_invariant.run_keeps (adds call member) held

end Change

namespace Dictionary

/-- Whatever definitions, tables, files and parts are added to an empty dictionary, names that are collected anew lead
to what is found without names. The names that were kept lead to the field that came first with an acronym, so the
answers are the same exactly if that field is the lowest one. -/
theorem byAcronym?_history {calls : List Call} (adds : ∀ call ∈ calls, call.adds) (acronym : String) :
    let dictionary := calls.foldl Call.run empty
    (dictionary.withNames true).byAcronym? acronym = (dictionary.withNames false).byAcronym? acronym ∧
      (∃ changes, Change.IsHistory changes dictionary) ∧
      ∀ changes, Change.IsHistory changes dictionary →
        (dictionary.byAcronym? acronym).map (·.fid) =
          ((Change.arrivals empty changes).find? (·.acronym == acronym)).map (·.fid) ∧
        (dictionary.byAcronym? acronym = (dictionary.withNames false).byAcronym? acronym ↔
          ∀ first ∈ (Change.arrivals empty changes).find? (·.acronym == acronym),
            ∀ other ∈ Change.arrivals empty changes, other.acronym = acronym → first.fid ≤ other.fid) := by
  intro dictionary
  have history : ∃ changes, Change.IsHistory changes dictionary := Change.exists_history adds
  have wellFormed : dictionary.WellFormed := List.foldlRecOn calls Call.run wellFormed_invariant.empty
    fun _ held call _ => wellFormed_invariant.run_keeps call held
  refine ⟨wellFormed.byAcronym?_withNames acronym, history, fun changes made => ?_⟩
  have recorded : dictionary.Recorded (Change.arrivals empty changes) := made.makes ▸ Recorded.empty.foldl made.adds
  refine ⟨?_, recorded.byAcronym?_eq_iff wellFormed acronym⟩
  rcases recorded.byAcronym?_kept wellFormed acronym with ⟨unfound, missing⟩ | ⟨first, field, found, led, -, same, -⟩
  · rw [missing, unfound]
  · rw [led, found, Option.map_some, Option.map_some, same]

/-- The lower one of two fields with an acronym comes last. -/
theorem byAcronym?_history_twice :
    let field (fid : Int16) : FieldDefinition := { fid, acronym := "SAME", wireType := .int }
    let calls : List Call := [.addField (field 25), .parseEnums [], .addField (field 22)]
    let dictionary := calls.foldl Call.run empty
    (∀ call ∈ calls, call.adds) ∧
      (dictionary.withNames true).byAcronym? "SAME" = (dictionary.withNames false).byAcronym? "SAME" ∧
      (dictionary.byAcronym? "SAME").map (·.fid) = some 25 ∧
      dictionary.byAcronym? "SAME" ≠ (dictionary.withNames false).byAcronym? "SAME" := by
  intro field calls dictionary
  have adds : ∀ call ∈ calls, call.adds := by decide
  obtain ⟨rebuilt, -, told⟩ := byAcronym?_history adds "SAME"
  have history : Change.IsHistory [.addField (field 25), .addField (field 22)] dictionary :=
    ⟨by decide, by rfl⟩
  obtain ⟨first, agree⟩ := told _ history
  refine ⟨adds, rebuilt, first.trans (by decide), fun same => ?_⟩
  have least := agree.mp same (field 25) (by decide) (field 22) (by decide) rfl
  exact absurd least (by decide)

/-- Whether names were kept or not is seen in the field that an acronym leads to. -/
theorem names_are_seen :
    let field (fid : Int16) : FieldDefinition := { fid, acronym := "SAME", wireType := .int }
    let dictionary := [Call.addField (field 2), Call.addField (field 1)].foldl Call.run empty
    dictionary.byAcronym? "SAME" = some (field 2) ∧
      (dictionary.withNames false).byAcronym? "SAME" = some (field 1) ∧
      (dictionary.withNames true).byAcronym? "SAME" = some (field 1) := by
  decide

end Dictionary

end MarketWire
