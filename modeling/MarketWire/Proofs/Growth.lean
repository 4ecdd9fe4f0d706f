import MarketWire.Proofs.Links

/-! Dictionaries grow.

Whatever is added to a dictionary, and wherever it fails, all that the dictionary told before it still tells:
definitions, tables with the fields that refer to them, names, the id and the tags.
-/

set_option autoImplicit false

namespace MarketWire.Dictionary

/-- What a dictionary told another one tells as well. -/
structure Grows (before after : Dictionary) : Prop where
  fields : ∀ {fid field}, before.get? fid = some field → after.get? fid = some field
  references : ∀ {fid table}, before.tableOf? fid = some table → after.tableOf? fid = some table
  tables : before.tables.toList <+: after.tables.toList
  names : ∀ {names : Std.ExtTreeMap String Int16}, before.names = some names →
    ∃ names' : Std.ExtTreeMap String Int16, after.names = some names' ∧
      ∀ {acronym : String} {fid : Int16}, names[acronym]? = some fid → names'[acronym]? = some fid
  id : before.id ≠ 0 → after.id = before.id
  fieldTags : FieldTagsKept before.fieldTags after.fieldTags
  enumTags : EnumTagsKept before.enumTags after.enumTags

/-! ## Chains -/

theorem TextKept.trans {before middle after : String} (first : TextKept before middle)
    (second : TextKept middle after) : TextKept before after := by
  intro filled
  have same := first filled
  rw [second (same ▸ filled), same]

theorem FieldTagsKept.refl (tags : FieldTags) : FieldTagsKept tags tags :=
  ⟨.refl _, .refl _, .refl _, .refl _, .refl _⟩

theorem EnumTagsKept.refl (tags : EnumTags) : EnumTagsKept tags tags :=
  ⟨.refl _, .refl _, .refl _, .refl _, .refl _⟩

theorem FieldTagsKept.trans {before middle after : FieldTags} (first : FieldTagsKept before middle)
    (second : FieldTagsKept middle after) : FieldTagsKept before after where
  version := first.version.trans second.version
  filename := first.filename.trans second.filename
  description := first.description.trans second.description
  build := first.build.trans second.build
  date := first.date.trans second.date

theorem EnumTagsKept.trans {before middle after : EnumTags} (first : EnumTagsKept before middle)
    (second : EnumTagsKept middle after) : EnumTagsKept before after where
  filename := first.filename.trans second.filename
  description := first.description.trans second.description
  date := first.date.trans second.date
  rtVersion := first.rtVersion.trans second.rtVersion
  dtVersion := first.dtVersion.trans second.dtVersion

namespace Grows

theorem refl (dictionary : Dictionary) : dictionary.Grows dictionary where
  fields found := found
  references found := found
  tables := List.prefix_rfl
  names kept := ⟨_, kept, fun found => found⟩
  id _ := rfl
  fieldTags := .refl _
  enumTags := .refl _

theorem trans {before middle after : Dictionary} (first : before.Grows middle) (second : middle.Grows after) :
    before.Grows after where
  fields found := second.fields (first.fields found)
  references found := second.references (first.references found)
  tables := first.tables.trans second.tables
  names kept := by
    obtain ⟨middleNames, keeps, leads⟩ := first.names kept
    obtain ⟨names', keeps', leads'⟩ := second.names keeps
    exact ⟨names', keeps', fun found => leads' (leads found)⟩
  id known := by
    have same := first.id known
    rw [second.id (same ▸ known), same]
  fieldTags := first.fieldTags.trans second.fieldTags
  enumTags := first.enumTags.trans second.enumTags

variable {before after : Dictionary} (grows : before.Grows after)
include grows

theorem enumLabel? {fid : Int16} {value : UInt16} {label : EnumLabel}
    (found : before.enumLabel? fid value = some label) : after.enumLabel? fid value = some label := by
  obtain ⟨table, refers, labelled⟩ := Option.bind_eq_some_iff.mp found
  exact Option.bind_eq_some_iff.mpr ⟨table, grows.references refers, labelled⟩

theorem byAcronym? (kept : before.names.isSome) {acronym : String} {field : FieldDefinition}
    (found : before.byAcronym? acronym = some field) : after.byAcronym? acronym = some field := by
  obtain ⟨names, kept⟩ := Option.isSome_iff_exists.mp kept
  obtain ⟨names', kept', leads⟩ := grows.names kept
  unfold Dictionary.byAcronym? at found ⊢
  rw [kept] at found
  rw [kept']
  obtain ⟨fid, named, defined⟩ := Option.bind_eq_some_iff.mp found
  exact Option.bind_eq_some_iff.mpr ⟨fid, leads named, grows.fields defined⟩

end Grows

/-! ## Steps -/

section
variable {dictionary : Dictionary}

theorem Admits.grows {field : FieldDefinition} (admits : dictionary.Admits field) :
    dictionary.Grows (dictionary.insertField field) where
  fields {fid other} found := by
    have different : field.fid ≠ fid := by
      rintro rfl
      rw [admits.free] at found
      cases found
    rw [get?_insertField, if_neg different, found]
  references found := found
  tables := List.prefix_rfl
  names {names} kept := by
    refine ⟨_, congrArg (Option.map _) kept, fun {acronym fid} found => ?_⟩
    -- The name of an acronym stays with the field that had it first.
    have taken : acronym ∈ names := by
      rw [Std.ExtTreeMap.mem_iff_isSome_getElem?, found]
      rfl
    rw [Std.ExtTreeMap.getElem?_insertIfNew, if_neg, found]
    rintro ⟨same, free⟩
    exact free (Std.LawfulEqCmp.eq_of_compare same ▸ taken)
  id _ := rfl
  fieldTags := .refl _
  enumTags := .refl _

theorem Accepts.grows {references : List (Int16 × String)} (accepts : dictionary.Accepts references)
    (table : EnumTable) : dictionary.Grows (dictionary.insertTable references table) where
  fields found := found
  references {fid own} found := by
    obtain ⟨link, linked, placed⟩ := Option.bind_eq_some_iff.mp found
    refine Option.bind_eq_some_iff.mpr ⟨link, ?_, ?_⟩
    · rcases getElem?_link references dictionary.tables.size dictionary.links fid with
        ⟨-, kept⟩ | ⟨acronym, member, -⟩
      · exact kept.trans linked
      · -- A table may not refer to a field that has one.
        have missing := accepts.unlinked _ member
        rw [Std.ExtTreeMap.mem_iff_isSome_getElem?, linked] at missing
        exact absurd rfl missing
    · have inside := (Array.getElem?_eq_some_iff.mp placed).1
      exact (Array.getElem?_push.trans (if_neg (Nat.ne_of_lt inside))).trans placed
  tables := by
    change _ <+: (dictionary.tables.push table).toList
    rw [Array.toList_push]
    exact List.prefix_append _ _
  names kept := ⟨_, kept, fun found => found⟩
  id _ := rfl
  fieldTags := .refl _
  enumTags := .refl _

theorem Grows.setRipple {after : Dictionary} (grows : dictionary.Grows after) {fid : Int16}
    (new : dictionary.get? fid = none) (target : Int16) : dictionary.Grows (after.setRipple fid target) where
  fields {other field} found := by
    have different : fid ≠ other := by
      rintro rfl
      rw [new] at found
      cases found
    rw [get?_setRipple, if_neg different, grows.fields found]
  references := grows.references
  tables := grows.tables
  names := grows.names
  id := grows.id
  fieldTags := grows.fieldTags
  enumTags := grows.enumTags

end

theorem Grows.invariant (before : Dictionary) :
    UpdateInvariant before.Grows fun fid => before.get? fid = none where
  id {dictionary} grows id free := { grows with
    id := fun known => by
      have same := grows.id known
      rcases free with unset | own
      · exact absurd (same ▸ unset) known
      · exact own ▸ same }
  fieldTags grows tags kept := { grows with fieldTags := grows.fieldTags.trans kept }
  enumTags grows tags kept := { grows with enumTags := grows.enumTags.trans kept }
  new {dictionary field} grows admits := by
    refine Option.eq_none_iff_forall_ne_some.mpr fun other found => ?_
    cases (grows.fields found).symm.trans admits.free
  field grows admits := grows.trans admits.grows
  table grows _ accepts := grows.trans (accepts.grows _)
  ripple grows _ new target := grows.setRipple new target

/-! ## Counts -/

theorem admits_of_ok {dictionary after : Dictionary} {field : FieldDefinition}
    (added : addField field dictionary = .ok () after) :
    dictionary.Admits field ∧ after = dictionary.insertField field := by
  by_cases admits : dictionary.Admits field
  · rw [addField_ok admits] at added
    cases added
    exact ⟨admits, rfl⟩
  · obtain ⟨error, failed⟩ := addField_error admits
    cases failed.symm.trans added

theorem tables_of_addTable_ok {dictionary after : Dictionary} {references : List (Int16 × String)}
    {values : List (UInt16 × EnumLabel)} (added : addTable references values dictionary = .ok () after) :
    after.tables.size = dictionary.tables.size + 1 := by
  rcases addTable_cases dictionary references values with ⟨table, -, -, same⟩ | ⟨error, failed⟩
  · cases same.symm.trans added
    exact Array.size_push table
  · cases failed.symm.trans added

theorem state_of_lift_ok {α : Type} {result : Except DictionaryError α} {dictionary after : Dictionary} {value : α}
    (lifted : Summary.lift result dictionary = .ok value after) : after = dictionary := by
  cases result with
  | ok found => cases lifted; rfl
  | error error => cases lifted

theorem addFieldRows_size {context : Context} {verbosity : Verbosity} {count added : Nat} {rows : List EntryValue}
    {dictionary after : Dictionary} (run : addFieldRows context verbosity count rows dictionary = .ok added after) :
    after.size + count = dictionary.size + added := by
  induction rows generalizing count dictionary with
  | nil =>
    cases run
    rfl
  | cons row rest ih =>
    cases row with
    | container type row =>
      obtain ⟨field, same, lifted, adds⟩ := Program.bind_eq_ok run
      obtain rfl := state_of_lift_ok lifted
      obtain ⟨⟨⟩, middle, inserted, behind⟩ := Program.bind_eq_ok adds
      obtain ⟨admits, rfl⟩ := admits_of_ok inserted
      have grown := ih behind
      rw [size_insertField admits.free] at grown
      omega
    | _ => exact ih run

theorem addEnumRows_size {context : Context} {verbosity : Verbosity} {count added : Nat} {rows : List EntryValue}
    {dictionary after : Dictionary} (run : addEnumRows context verbosity count rows dictionary = .ok added after) :
    after.tables.size + count = dictionary.tables.size + added := by
  induction rows generalizing count dictionary with
  | nil =>
    cases run
    rfl
  | cons row rest ih =>
    cases row with
    | container type row =>
      obtain ⟨⟨fids, values⟩, same, lifted, adds⟩ := Program.bind_eq_ok run
      obtain rfl := state_of_lift_ok lifted
      obtain ⟨⟨⟩, middle, inserted, behind⟩ := Program.bind_eq_ok adds
      have grown := ih behind
      rw [tables_of_addTable_ok inserted] at grown
      omega
    | _ => exact ih run

theorem content_invariant (before : Dictionary) : TagInvariant fun state =>
    state.size = before.size ∧ state.tables.size = before.tables.size where
  id same _ _ := same
  fieldTags same _ _ := same
  enumTags same _ _ := same

/-- A part that is taken in adds rows, after steps that keep what the elements of the summary keep. -/
theorem exists_rows_of_ok {α : Type} {holds : Dictionary → Prop} {apply : ElementList.Entry → Update Unit}
    {table : Except DecodeError Series.Content} {next : Context → Series.Content → Update α}
    {dictionary after : Dictionary} {value : α}
    (keeps : ∀ element, Program.Agree (Program.Kept holds) (apply element) (apply element)) (held : holds dictionary)
    (run : (do
      let series ← Summary.lift (table.mapError .decode)
      Summary.checkRows series.header
      Summary.applyEach apply series.header
      let context ← Summary.rowContext series.header
      next context series) dictionary = .ok value after) :
    ∃ context series middle, holds middle ∧ next context series middle = .ok value after := by
  obtain ⟨series, first, decoded, checks⟩ := Program.bind_eq_ok run
  obtain ⟨⟨⟩, second, checked, applies⟩ := Program.bind_eq_ok checks
  obtain ⟨⟨⟩, third, applied, asks⟩ := Program.bind_eq_ok applies
  obtain ⟨context, fourth, told, adds⟩ := Program.bind_eq_ok asks
  have first : holds first := (lift_agree _).keeps.of_ok held decoded
  have second : holds second := (checkRows_agree _).keeps.of_ok first checked
  have third : holds third := (applyEach_agree keeps _).keeps.of_ok second applied
  exact ⟨context, series, fourth, (rowContext_agree _).keeps.of_ok third told, adds⟩

theorem decodeFields_size {verbosity : Verbosity} {part : Bytes} {added : Nat} {dictionary after : Dictionary}
    (run : decodeFields verbosity part dictionary = .ok added after) : after.size = dictionary.size + added := by
  obtain ⟨context, series, middle, same, adds⟩ :=
    exists_rows_of_ok (content_invariant dictionary).alike.applyFieldSummary ⟨rfl, rfl⟩ run
  rw [← same.1]
  exact addFieldRows_size adds

theorem decodeEnums_size {verbosity : Verbosity} {part : Bytes} {added : Nat} {dictionary after : Dictionary}
    (run : decodeEnums verbosity part dictionary = .ok added after) :
    after.tables.size = dictionary.tables.size + added := by
  obtain ⟨context, series, middle, same, adds⟩ :=
    exists_rows_of_ok (content_invariant dictionary).alike.applyEnumSummary ⟨rfl, rfl⟩ run
  rw [← same.2]
  exact addEnumRows_size adds

/-! ## Calls -/

/-- Whatever adds to a dictionary, whether it succeeds or fails, the dictionary only grows; a part that is taken
in adds as many definitions or tables as it counts. -/
theorem call_grows (dictionary : Dictionary) (call : Call) (adds : call.adds) :
    dictionary.Grows (call.run dictionary) ∧
      (∀ {fid value label}, dictionary.enumLabel? fid value = some label →
        (call.run dictionary).enumLabel? fid value = some label) ∧
      (dictionary.names.isSome → ∀ {acronym field}, dictionary.byAcronym? acronym = some field →
        (call.run dictionary).byAcronym? acronym = some field) ∧
      (∀ {verbosity part added after}, decodeFields verbosity part dictionary = .ok added after →
        after.size = dictionary.size + added) ∧
      ∀ {verbosity part added after}, decodeEnums verbosity part dictionary = .ok added after →
        after.tables.size = dictionary.tables.size + added :=
  have grows := (Grows.invariant dictionary).run_keeps adds (Grows.refl dictionary)
  ⟨grows, grows.enumLabel?, fun kept => grows.byAcronym? kept, decodeFields_size, decodeEnums_size⟩

/-- A part with one definition arrives where there is one already. -/
theorem call_grows_ask :
    let quotes := (Call.addField { fid := 22, acronym := "BID", wireType := .real }).run empty
    let part : Bytes := [0, 5, 0, 1, 31, 2, 0, 3,
      4, 0x4E, 0x41, 0x4D, 0x45, 17, 3, 0x41, 0x53, 0x4B,
      3, 0x46, 0x49, 0x44, 3, 1, 25,
      7, 0x52, 0x57, 0x46, 0x54, 0x59, 0x50, 0x45, 4, 1, 8]
    let received := (Call.decodeFields .minimal part).run quotes
    quotes.Grows received ∧ (received.byAcronym? "BID").map (·.fid) = some 22 ∧
      (received.byAcronym? "ASK").map (·.fid) = some 25 ∧ received.size = quotes.size + 1 := by
  intro quotes part received
  obtain ⟨grows, -, acronyms, size, -⟩ := call_grows quotes (.decodeFields .minimal part) rfl
  have bid : quotes.byAcronym? "BID" = some { fid := 22, acronym := "BID", wireType := .real } := by decide
  have decoded : decodeFields .minimal part quotes = .ok 1 received := rfl
  exact ⟨grows, congrArg _ (acronyms rfl bid), by decide +kernel, size decoded⟩

end MarketWire.Dictionary
