import MarketWire.Proofs.Additions
import MarketWire.Proofs.Ripples

/-! Definition files that are loaded in either order.

A file of definitions and a file of enumerated values leave each other's part of a dictionary alone, but for the id. A
file of definitions gives its id to the dictionary, and a file of enumerated values only compares its own id with that
of the dictionary. So an id that does not fit is found only by the file that is loaded last, if that is the one with
the enumerated values.
-/

set_option autoImplicit false

namespace MarketWire

/-! ## Ids in files -/

def Line.id? : Line → Option Int32
  | .tag "DictionaryId" value => (Integer.ofBits? 32 (Blank.trim value.toList)).map Int32.ofInt
  | _ => none

theorem Line.id?_tag (value : String) :
    (Line.tag "DictionaryId" value).id? = (Integer.ofBits? 32 (Blank.trim value.toList)).map Int32.ofInt := rfl

def Line.ids (lines : List (Line × Nat)) : List Int32 := lines.filterMap (·.1.id?)

/-- Ids from two sources fit if they are the same or one of them is not known. -/
def Dictionary.IdsFit (id id' : Int32) : Prop := id = 0 ∨ id' = 0 ∨ id = id'

theorem Dictionary.IdsFit.symm {id id' : Int32} (fit : IdsFit id id') : IdsFit id' id := by
  obtain unknown | unknown | same := fit
  · exact .inr (.inl unknown)
  · exact .inl unknown
  · exact .inr (.inr same.symm)

instance (id id' : Int32) : Decidable (Dictionary.IdsFit id id') :=
  inferInstanceAs (Decidable (id = 0 ∨ id' = 0 ∨ id = id'))

theorem Line.forall_mem_ids_cons {holds : Int32 → Prop} {line : Line × Nat} {rest : List (Line × Nat)} :
    (∀ id ∈ ids (line :: rest), holds id) ↔ (∀ id ∈ line.1.id?, holds id) ∧ ∀ id ∈ ids rest, holds id := by
  unfold ids
  rw [List.filterMap_cons]
  cases line.1.id? <;> simp

namespace Dictionary

open Program (Commutes Guarded)

/-! ## Programs that only add to the error, or take changes back -/

section
variable {α β : Type} {update : Update α} {other : Update β}

theorem onLine_commutes (commutes : Commutes update other) (line : Nat) : Commutes (onLine line update) other :=
  commutes.congr fun _ _ _ => onLine_eq_ok

theorem transaction_commutes (commutes : Commutes update other) : Commutes (transaction update) other :=
  commutes.congr fun _ _ _ => transaction_eq_ok

theorem scanLine_commutes (line : Nat) (scan : Scan α) (content : Bytes) (other : Update β) :
    Commutes (scanLine line scan content) other := by
  unfold scanLine
  cases scan content with
  | ok value rest => exact .pure value other
  | error reason rest => exact .throw _ other

theorem tagNumber_commutes (line bits : Nat) (name value : String) (other : Update β) :
    Commutes (tagNumber line bits name value) other := by
  unfold tagNumber
  cases Integer.ofBits? bits (Blank.trim value.toList) with
  | some number => exact .pure number other
  | none => exact .throw _ other

theorem applyCommonTag_commutes {adopt : Bool} {name value : String}
    (id : ∀ id ∈ (Line.tag name value).id?, Commutes (checkId id adopt) other) (line : Nat) (kind : DictionaryKind) :
    Commutes (applyCommonTag line kind adopt name value) other := by
  unfold applyCommonTag
  split
  · exact .bind (tagNumber_commutes _ _ _ _ _) fun _ =>
      .ite (fun _ => onLine_commutes (.throw _ _) line) fun _ => .pure _ _
  · unfold tagNumber
    cases number : Integer.ofBits? 32 (Blank.trim value.toList) with
    | some number =>
      rw [pure_bind]
      refine onLine_commutes (id _ ?_) line
      rw [Line.id?_tag, number]
      rfl
    | none => exact .of_fails (by rintro _ _ _ ⟨⟩) other
  · exact .pure _ _

end

/-! ## Files of definitions -/

structure CommutesWithFields {β : Type} (ids : List Int32) (other : Update β) : Prop where
  field : ∀ field, Commutes (addField field) other
  id : ∀ id ∈ ids, Commutes (checkId id true) other
  tags : ∀ change, Commutes (setFieldTags change) other
  ripples : ∀ ripples, Commutes (modify (resolveRipples ripples) : Update PUnit) other

section
variable {β : Type} {other : Update β}

theorem CommutesWithFields.applyFieldTag {name value : String} {rest : List (Line × Nat)} {line : Nat}
    (commutes : CommutesWithFields (Line.ids ((.tag name value, line) :: rest)) other) :
    Commutes (applyFieldTag line name value) other := by
  refine .bind (applyCommonTag_commutes (Line.forall_mem_ids_cons.mp commutes.id).1 _ _) fun _ => ?_
  split
  case h_6 => exact .pure _ _
  all_goals exact commutes.tags _

theorem CommutesWithFields.tail {line : Line × Nat} {rest : List (Line × Nat)}
    (commutes : CommutesWithFields (Line.ids (line :: rest)) other) : CommutesWithFields (Line.ids rest) other :=
  { commutes with id := (Line.forall_mem_ids_cons.mp commutes.id).2 }

theorem CommutesWithFields.addFieldLines (ripples : List (Int16 × String)) {lines : List (Line × Nat)}
    (commutes : CommutesWithFields (Line.ids lines) other) : Commutes (addFieldLines ripples lines) other := by
  induction lines generalizing ripples with
  | nil => exact .pure _ _
  | cons line rest ih =>
    have later (ripples : List (Int16 × String)) := ih ripples commutes.tail
    obtain ⟨line, number⟩ := line
    cases line with
    | nothing => exact later ripples
    | tag name value => exact .bind commutes.applyFieldTag fun _ => later ripples
    | words content =>
      refine .bind (scanLine_commutes _ _ _ _) fun (field, ripple) => ?_
      refine .bind (onLine_commutes (commutes.field field) number) fun _ => ?_
      cases ripple <;> exact later _

theorem CommutesWithFields.parseFields {text : Bytes}
    (commutes : CommutesWithFields (Line.ids (Line.ofText text)) other) : Commutes (parseFields text) other :=
  transaction_commutes (.bind (commutes.addFieldLines []) commutes.ripples)

end

/-! ## Files of enumerated values -/

structure CommutesWithEnums {β : Type} (ids : List Int32) (other : Update β) : Prop where
  table : ∀ references values, Commutes (addTable references values) other
  id : ∀ id ∈ ids, Commutes (checkId id false) other
  tags : ∀ change, Commutes (setEnumTags change) other

section
variable {β : Type} {other : Update β}

theorem CommutesWithEnums.applyEnumTag {name value : String} {rest : List (Line × Nat)} {line : Nat}
    (commutes : CommutesWithEnums (Line.ids ((.tag name value, line) :: rest)) other) :
    Commutes (applyEnumTag line name value) other := by
  refine .bind (applyCommonTag_commutes (Line.forall_mem_ids_cons.mp commutes.id).1 _ _) fun _ => ?_
  split
  case h_6 => exact .pure _ _
  all_goals exact commutes.tags _

theorem CommutesWithEnums.tail {line : Line × Nat} {rest : List (Line × Nat)}
    (commutes : CommutesWithEnums (Line.ids (line :: rest)) other) : CommutesWithEnums (Line.ids rest) other :=
  { commutes with id := (Line.forall_mem_ids_cons.mp commutes.id).2 }

theorem CommutesWithEnums.addPending {ids : List Int32} (commutes : CommutesWithEnums ids other) (line : Nat)
    (pending : PendingTable) : Commutes (addPending line pending) other :=
  onLine_commutes (commutes.table _ _) line

theorem CommutesWithEnums.closeTable {ids : List Int32} (commutes : CommutesWithEnums ids other) (line : Nat)
    (pending : PendingTable) : Commutes (closeTable line pending) other :=
  .ite (fun _ => .pure _ _) fun _ => .bind (commutes.addPending line pending) fun _ => .pure _ _

theorem CommutesWithEnums.addEnumLines (pending : PendingTable) {lines : List (Line × Nat)}
    (commutes : CommutesWithEnums (Line.ids lines) other) : Commutes (addEnumLines pending lines) other := by
  induction lines generalizing pending with
  | nil => exact .pure _ _
  | cons line rest ih =>
    have later (pending : PendingTable) := ih pending commutes.tail
    obtain ⟨line, number⟩ := line
    cases line with
    | nothing => exact later pending
    | tag name value => exact .bind commutes.applyEnumTag fun _ => later pending
    | words content =>
      refine .bind (scanLine_commutes _ _ _ _) fun found => ?_
      cases found with
      | value value label => exact later _
      | reference acronym fid =>
        refine .bind (commutes.closeTable number pending) fun pending => ?_
        cases fid with
        | some fid => exact later _
        | none => exact .throw _ _

theorem CommutesWithEnums.parseEnums {text : Bytes}
    (commutes : CommutesWithEnums (Line.ids (Line.ofText text)) other) : Commutes (parseEnums text) other := by
  refine transaction_commutes (.bind (commutes.addEnumLines _) fun pending => ?_)
  have last := commutes.addPending (Line.ofText text).length pending
  exact .ite (fun _ => .bind (onLine_commutes (.throw _ _) _) fun _ => last) fun _ => last

end

/-! ## Steps of both files -/

theorem admits_congr {dictionary dictionary' : Dictionary}
    (definitions : dictionary'.definitions = dictionary.definitions) (links : dictionary'.links = dictionary.links)
    (field : FieldDefinition) :
    dictionary'.Admits field ↔ dictionary.Admits field := by
  have get? (fid : Int16) : dictionary'.get? fid = dictionary.get? fid := by
    unfold Dictionary.get?
    rw [definitions]
  constructor
  · exact fun admits => ⟨admits.fid, admits.wireType, get? _ ▸ admits.free, links ▸ admits.acronym⟩
  · exact fun admits => ⟨admits.fid, admits.wireType, (get? _).trans admits.free, links ▸ admits.acronym⟩

theorem accepts_congr {dictionary dictionary' : Dictionary} (links : dictionary'.links = dictionary.links)
    (acronyms : ∀ fid, dictionary'.acronymOf? fid = dictionary.acronymOf? fid) (references : List (Int16 × String)) :
    dictionary'.Accepts references ↔ dictionary.Accepts references := by
  constructor
  · rintro ⟨distinct, unlinked, agree⟩
    exact ⟨distinct, links ▸ unlinked, fun reference member => acronyms _ ▸ agree reference member⟩
  · rintro ⟨distinct, unlinked, agree⟩
    exact ⟨distinct, links ▸ unlinked, fun reference member => (acronyms _).symm ▸ agree reference member⟩

def adoptId (id : Int32) (dictionary : Dictionary) : Dictionary :=
  { dictionary with id := if id = 0 then dictionary.id else id }

theorem checkId_eq (id : Int32) (adopt : Bool) (dictionary : Dictionary) : checkId id adopt dictionary =
    if IdsFit id dictionary.id then .ok () (if adopt then adoptId id dictionary else dictionary)
    else .error (.dictionaryIdMismatch id dictionary.id) dictionary := by
  have refused : id ≠ 0 ∧ dictionary.id ≠ 0 ∧ id ≠ dictionary.id ↔ ¬ IdsFit id dictionary.id := by
    simp only [IdsFit, not_or, ne_eq]
  unfold checkId
  rw [Program.get_bind]
  simp only [refused]
  by_cases fit : IdsFit id dictionary.id
  · rw [if_pos fit, if_neg (not_not_intro fit)]
    unfold adoptId
    by_cases unknown : id = 0 <;> cases adopt <;> simp [unknown] <;> rfl
  · rw [if_neg fit, if_pos fit]
    rfl

theorem guarded_checkId (id : Int32) (adopt : Bool) :
    Guarded (checkId id adopt) (fun dictionary => IdsFit id dictionary.id)
      fun dictionary => if adopt then adoptId id dictionary else dictionary := by
  refine ⟨fun {dictionary after} => ?_⟩
  rw [checkId_eq]
  by_cases fit : IdsFit id dictionary.id
  · rw [if_pos fit, EStateM.Result.ok.injEq]
    simp [fit, eq_comm]
  · rw [if_neg fit]
    simp [fit]

theorem guarded_setFieldTags (change : FieldTags → FieldTags) : Guarded (setFieldTags change) (fun _ => True)
    fun dictionary => { dictionary with fieldTags := change dictionary.fieldTags } :=
  Program.guarded_modify _

theorem guarded_setEnumTags (change : EnumTags → EnumTags) : Guarded (setEnumTags change) (fun _ => True)
    fun dictionary => { dictionary with enumTags := change dictionary.enumTags } :=
  Program.guarded_modify _

theorem guarded_ripples (ripples : List (Int16 × String)) :
    Guarded (modify (resolveRipples ripples) : Update PUnit) (fun _ => True) (resolveRipples ripples) :=
  Program.guarded_modify _

theorem idsFit_adoptId {id other : Int32} (fit : IdsFit id other) (dictionary : Dictionary) :
    IdsFit id dictionary.id ∧ IdsFit other (adoptId id dictionary).id ↔
      IdsFit other dictionary.id ∧ IdsFit id dictionary.id := by
  unfold adoptId
  by_cases unknown : id = 0
  · simp only [if_pos unknown, and_comm]
  · simp only [if_neg unknown]
    unfold IdsFit at *
    grind

theorem acronymOf?_resolveRipples (ripples : List (Int16 × String)) (dictionary : Dictionary) (fid : Int16) :
    (resolveRipples ripples dictionary).acronymOf? fid = dictionary.acronymOf? fid := by
  rw [resolveRipples_eq]
  unfold acronymOf? get?
  dsimp only
  rw [acronym_ripples]

/-! ## Steps of one file beside the other file -/

theorem addField_commutesWithEnums (field : FieldDefinition) (ids : List Int32) :
    CommutesWithEnums ids (addField field) where
  table references values := (addField_commutes_addTable field references values).symm
  id id _ := (guarded_checkId id false).commutes_of_frame (guarded_addField field) (fun _ => Iff.rfl)
    (fun _ => Iff.rfl) fun _ => rfl
  tags change := (guarded_setEnumTags change).commutes_of_frame (guarded_addField field)
    (fun _ => by apply admits_congr <;> rfl) (fun _ => Iff.rfl) fun _ => rfl

theorem checkId_commutesWithEnums {id : Int32} {ids : List Int32} (fit : ∀ other ∈ ids, IdsFit id other) :
    CommutesWithEnums ids (checkId id true) where
  table references values := (commutes_addTable fun table made =>
    (guarded_checkId id true).commutes_of_frame (guarded_addTable made)
      (fun _ => by apply accepts_congr <;> intros <;> rfl) (fun _ => Iff.rfl) fun _ => rfl).symm
  id other member := ((guarded_checkId id true).commutes (guarded_checkId other false)
    (idsFit_adoptId (fit other member)) fun _ => rfl).symm
  tags change := (guarded_setEnumTags change).commutes_of_frame (guarded_checkId id true) (fun _ => Iff.rfl)
    (fun _ => Iff.rfl) fun _ => rfl

theorem setFieldTags_commutesWithEnums (change : FieldTags → FieldTags) (ids : List Int32) :
    CommutesWithEnums ids (setFieldTags change) where
  table references values := (commutes_addTable fun table made =>
    (guarded_setFieldTags change).commutes_of_frame (guarded_addTable made)
      (fun _ => by apply accepts_congr <;> intros <;> rfl) (fun _ => Iff.rfl) fun _ => rfl).symm
  id id _ := (guarded_checkId id false).commutes_of_frame (guarded_setFieldTags change) (fun _ => Iff.rfl)
    (fun _ => Iff.rfl) fun _ => rfl
  tags other := (guarded_setEnumTags other).commutes_of_frame (guarded_setFieldTags change) (fun _ => Iff.rfl)
    (fun _ => Iff.rfl) fun _ => rfl

theorem resolveRipples_commutesWithEnums (ripples : List (Int16 × String)) (ids : List Int32) :
    CommutesWithEnums ids (modify (resolveRipples ripples) : Update PUnit) where
  table references values := by
    refine (commutes_addTable fun table made => (guarded_ripples ripples).commutes_of_frame (guarded_addTable made)
      (fun dictionary => ?_) (fun _ => Iff.rfl) fun dictionary => ?_).symm
    · exact accepts_congr (by rw [resolveRipples_eq]) (acronymOf?_resolveRipples ripples dictionary) references
    · rw [resolveRipples_eq, resolveRipples_eq]
      rfl
  id id _ := by
    refine (guarded_checkId id false).commutes_of_frame (guarded_ripples ripples) (fun _ => Iff.rfl)
      (fun dictionary => ?_) fun _ => rfl
    rw [resolveRipples_eq]
  tags change := by
    refine (guarded_setEnumTags change).commutes_of_frame (guarded_ripples ripples) (fun _ => Iff.rfl)
      (fun _ => Iff.rfl) fun dictionary => ?_
    rw [resolveRipples_eq, resolveRipples_eq]
    rfl

/-- Files commute if their ids fit. -/
theorem parseFields_commutes_parseEnums {fields enums : Bytes}
    (fit : ∀ id ∈ Line.ids (Line.ofText fields), ∀ other ∈ Line.ids (Line.ofText enums), IdsFit id other) :
    Commutes (parseFields fields : Update Unit) (parseEnums enums) :=
  CommutesWithFields.parseFields
    { field := fun field => (addField_commutesWithEnums field _).parseEnums.symm
      id := fun id member => (checkId_commutesWithEnums (fit id member)).parseEnums.symm
      tags := fun change => (setFieldTags_commutesWithEnums change _).parseEnums.symm
      ripples := fun ripples => (resolveRipples_commutesWithEnums ripples _).parseEnums.symm }

/-! ## Ids that are found -/

theorem name_of_mem_id? {name value : String} {id : Int32} (told : id ∈ (Line.tag name value).id?) :
    name = "DictionaryId" := by
  unfold Line.id? at told
  split at told
  case h_1 same =>
    cases same
    rfl
  case h_2 => cases told

theorem checkId_of_tag {line : Nat} {kind : DictionaryKind} {adopt : Bool} {name value : String}
    {dictionary after : Dictionary} (run : applyCommonTag line kind adopt name value dictionary = .ok () after)
    {id : Int32} (told : id ∈ (Line.tag name value).id?) : checkId id adopt dictionary = .ok () after := by
  obtain rfl := name_of_mem_id? told
  obtain ⟨number, found, rfl⟩ := Option.map_eq_some_iff.mp ((Line.id?_tag value).symm.trans told)
  obtain ⟨number', middle, same, checked⟩ := Program.bind_eq_ok run
  unfold tagNumber at same
  rw [found] at same
  cases same
  exact onLine_eq_ok.mp checked

theorem id_invariant {id : Int32} (known : id ≠ 0) :
    UpdateInvariant (fun dictionary => dictionary.id = id) fun _ => True where
  id held _ free := free.elim (fun unknown => absurd (held.symm.trans unknown) known) fun same => same ▸ held
  fieldTags held _ _ := held
  enumTags held _ _ := held
  new _ _ := trivial
  field held _ := held
  table held _ _ := held
  ripple held _ _ _ := held

/-- A file of definitions leaves its ids to the dictionary. -/
theorem id_of_addFieldLines {ripples ripples' : List (Int16 × String)} {lines : List (Line × Nat)}
    {dictionary after : Dictionary} (run : addFieldLines ripples lines dictionary = .ok ripples' after) :
    ∀ id ∈ Line.ids lines, id = 0 ∨ after.id = id := by
  induction lines generalizing ripples dictionary with
  | nil => exact fun id told => nomatch told
  | cons line rest ih =>
    refine Line.forall_mem_ids_cons.mpr ?_
    obtain ⟨line, number⟩ := line
    cases line with
    | nothing => exact ⟨nofun, ih run⟩
    | tag name value =>
      obtain ⟨⟨⟩, middle, applied, others⟩ := Program.bind_eq_ok run
      refine ⟨fun id told => Decidable.or_iff_not_imp_left.mpr fun known => ?_, ih others⟩
      obtain rfl := name_of_mem_id? told
      obtain ⟨⟨⟩, _, common, ends⟩ := Program.bind_eq_ok applied
      cases ends
      -- What the tag adopts no line behind it changes.
      obtain ⟨-, rfl⟩ := (guarded_checkId id true).run.mp (checkId_of_tag common told)
      exact ((id_invariant known).alike.addFieldLines (fun _ _ => trivial) rest).keeps.of_ok (if_neg known) others
    | words content =>
      obtain ⟨⟨field, ripple⟩, first, -, adds⟩ := Program.bind_eq_ok run
      obtain ⟨⟨⟩, second, -, others⟩ := Program.bind_eq_ok adds
      refine ⟨nofun, ?_⟩
      cases ripple <;> exact ih others

/-- A file of enumerated values fits the id of the dictionary. -/
theorem idsFit_of_addEnumLines {own : Int32} (known : own ≠ 0) {pending pending' : PendingTable}
    {lines : List (Line × Nat)} {dictionary after : Dictionary} (held : dictionary.id = own)
    (run : addEnumLines pending lines dictionary = .ok pending' after) : ∀ id ∈ Line.ids lines, IdsFit own id := by
  have invariant := id_invariant known
  induction lines generalizing pending dictionary with
  | nil => exact fun id told => nomatch told
  | cons line rest ih =>
    refine Line.forall_mem_ids_cons.mpr ?_
    obtain ⟨line, number⟩ := line
    cases line with
    | nothing => exact ⟨nofun, ih held run⟩
    | tag name value =>
      obtain ⟨⟨⟩, middle, applied, others⟩ := Program.bind_eq_ok run
      refine ⟨fun id told => ?_, ih ((invariant.alike.applyEnumTag number name value).keeps.of_ok held applied) others⟩
      obtain ⟨⟨⟩, _, common, -⟩ := Program.bind_eq_ok applied
      obtain ⟨fit, -⟩ := (guarded_checkId id false).run.mp (checkId_of_tag common told)
      exact held ▸ fit.symm
    | words content =>
      obtain ⟨found, first, scanned, adds⟩ := Program.bind_eq_ok run
      have scans : Program.Keeps (fun dictionary : Dictionary => dictionary.id = own)
          (scanLine number Scan.enumLine content) := (scanLine_agree number _ _).keeps
      have held := scans.of_ok held scanned
      refine ⟨nofun, ?_⟩
      cases found with
      | value value label => exact ih held adds
      | reference acronym fid =>
        obtain ⟨pending, second, closed, others⟩ := Program.bind_eq_ok adds
        have held := (invariant.alike.closeTable number _).keeps.of_ok held closed
        cases fid with
        | some fid => exact ih held others
        | none => cases others

theorem idsFit_of_load {fields enums : Bytes} {dictionary middle after : Dictionary}
    (defined : parseFields fields dictionary = .ok () middle) (listed : parseEnums enums middle = .ok () after) :
    ∀ id ∈ Line.ids (Line.ofText fields), ∀ other ∈ Line.ids (Line.ofText enums), IdsFit id other := by
  intro id told other told'
  obtain ⟨ripples, resolved, lines, ⟨⟩⟩ := Program.bind_eq_ok (transaction_eq_ok.mp defined)
  obtain ⟨pending, _, lines', -⟩ := Program.bind_eq_ok (transaction_eq_ok.mp listed)
  refine Decidable.or_iff_not_imp_left.mpr fun known => ?_
  have left : resolved.id = id := (id_of_addFieldLines lines id told).resolve_left known
  refine (idsFit_of_addEnumLines known ?_ lines' other told').resolve_left known
  change (resolveRipples ripples resolved).id = id
  rw [resolveRipples_eq, left]

/-- Two files are loaded in one order exactly if they are loaded in the other order and their ids fit, and then the
dictionary is the same. -/
theorem parse_fields_enums_iff (fields enums : Bytes) (dictionary after : Dictionary) :
    (do parseFields fields; parseEnums enums : Update Unit) dictionary = .ok () after ↔
      (do parseEnums enums; parseFields fields : Update Unit) dictionary = .ok () after ∧
        ∀ id ∈ Line.ids (Line.ofText fields), ∀ other ∈ Line.ids (Line.ofText enums), IdsFit id other := by
  simp only [Program.seq_eq_ok]
  constructor
  · rintro ⟨middle, defined, listed⟩
    have fit := idsFit_of_load defined listed
    exact ⟨(parseFields_commutes_parseEnums fit dictionary () () after).mp ⟨middle, defined, listed⟩, fit⟩
  · rintro ⟨loaded, fit⟩
    exact (parseFields_commutes_parseEnums fit dictionary () () after).mpr loaded

/-- An id that does not fit is found in one order and not in the other one. -/
theorem parse_order_matters :
    let fields := Bytes.ofString "!tag DictionaryId 1\n"
    let enums := Bytes.ofString "!tag DictionaryId 2\nRDN_EXCHID 4\n1 \"ASE\"\n"
    ¬ (Program.succeeds (do parseFields fields; parseEnums enums : Update Unit) empty ↔
      Program.succeeds (do parseEnums enums; parseFields fields : Update Unit) empty) := by
  decide +kernel

end Dictionary

end MarketWire
