import MarketWire.DefinitionFile.Enums
import MarketWire.Publication
import MarketWire.Proofs.Programs

/-! Stores that are updated alike.

Files and parts add to a store by few operations. If two stores answer each of these alike and stay related, they answer
files and parts alike too, wherever these fail. What survives each operation on one store is a case of this.
-/

set_option autoImplicit false

namespace MarketWire.Dictionary

open Program (Agree Relates)

/-! ## Calls -/

inductive Call where
  | withNames (keep : Bool)
  | addField (field : FieldDefinition)
  | addTable (references : List (Int16 × String)) (values : List (UInt16 × EnumLabel))
  | parseFields (text : Bytes)
  | parseEnums (text : Bytes)
  | decodeFields (verbosity : Verbosity) (part : Bytes)
  | decodeEnums (verbosity : Verbosity) (part : Bytes)
  | clear

def Call.run {σ : Type} [Store σ] (state : σ) : Call → σ
  | .withNames keep => Store.withNames state keep
  | .addField field => Program.after (Store.addField field) state
  | .addTable references values => Program.after (Store.addTable references values) state
  | .parseFields text => Program.after (Dictionary.parseFields text) state
  | .parseEnums text => Program.after (Dictionary.parseEnums text) state
  | .decodeFields verbosity part => Program.after (Dictionary.decodeFields verbosity part) state
  | .decodeEnums verbosity part => Program.after (Dictionary.decodeEnums verbosity part) state
  | .clear => Store.clear state

def Call.adds : Call → Bool
  | .withNames _ | .clear => false
  | _ => true

/-! ## Steps without an operation -/

section
variable {σ τ α : Type} {related : σ → τ → Prop} {post : α → Prop}

-- A failure puts both stores back, whatever became of them in the meantime.
theorem transaction_relates {update : Store.Update σ α} {update' : Store.Update τ α}
    (relates : Relates related post update update') :
    Relates related post (transaction update) (transaction update') := by
  intro state state' same
  obtain ⟨alike, told⟩ := relates state state' same
  unfold transaction
  cases ran : update state <;> cases ran' : update' state' <;> rw [ran, ran'] at alike
  · refine ⟨alike, ?_⟩
    rintro _ _ ⟨⟩
    exact told _ _ ran
  · cases alike
  · cases alike
  · exact ⟨⟨alike.1, same⟩, nofun⟩

theorem onLine_relates {update : Store.Update σ α} {update' : Store.Update τ α}
    (relates : Relates related post update update') (line : Nat) :
    Relates related post (onLine line update) (onLine line update') := by
  intro state state' same
  obtain ⟨alike, told⟩ := relates state state' same
  unfold onLine
  cases ran : update state <;> cases ran' : update' state' <;> rw [ran, ran'] at alike
  · refine ⟨alike, ?_⟩
    rintro _ _ ⟨⟩
    exact told _ _ ran
  · cases alike
  · cases alike
  · exact ⟨⟨congrArg _ alike.1, alike.2⟩, nofun⟩

theorem scanLine_agree (line : Nat) (scan : Scan α) (content : Bytes) :
    Agree related (scanLine line scan content) (scanLine line scan content) := by
  unfold scanLine
  cases scan content with
  | ok value rest => exact .pure trivial
  | error reason rest => exact .throw _

theorem tagNumber_agree (line bits : Nat) (name value : String) :
    Agree related (tagNumber line bits name value) (tagNumber line bits name value) := by
  unfold tagNumber
  cases Integer.ofBits? bits (Blank.trim value.toList) with
  | some number => exact .pure trivial
  | none => exact .throw _

theorem lift_agree (result : Except DictionaryError α) :
    Agree related (Summary.lift result) (Summary.lift result) := by
  cases result with
  | ok value => exact .pure trivial
  | error error => exact .throw error

theorem forM_agree {values : List α} {update : α → Store.Update σ Unit} {update' : α → Store.Update τ Unit}
    (relates : ∀ value, Agree related (update value) (update' value)) :
    Agree related (values.forM update) (values.forM update') := by
  induction values with
  | nil => exact .pure trivial
  | cons value rest ih => exact .bind (relates value) fun _ _ => ih

theorem applyEach_agree {apply : ElementList.Entry → Store.Update σ Unit}
    {apply' : ElementList.Entry → Store.Update τ Unit}
    (relates : ∀ element, Agree related (apply element) (apply' element)) (header : Table.Header) :
    Agree related (Summary.applyEach apply header) (Summary.applyEach apply' header) := by
  unfold Summary.applyEach
  cases header.summary with
  | none => exact .pure trivial
  | some summary => exact .bind (lift_agree _) fun _ _ => forM_agree relates

theorem checkRows_agree (header : Table.Header) :
    Agree related (Summary.checkRows header) (Summary.checkRows header) :=
  .ite (fun _ => .throw _) fun _ => .pure trivial

theorem rowContext_agree (header : Table.Header) :
    Agree related (Summary.rowContext header) (Summary.rowContext header) := by
  unfold Summary.rowContext
  cases header.elementSets with
  | none => exact .pure trivial
  | some sets =>
    cases sets with
    | ok sets => exact .pure trivial
    | error error => exact .throw _

end

/-! ## Ids and tags -/

def TextKept (before after : String) : Prop := before ≠ "" → after = before

theorem TextKept.refl (text : String) : TextKept text text := fun _ => rfl

theorem textKept_setOnce (tag text : String) : TextKept tag (setOnce tag text) := by
  intro filled
  unfold setOnce
  rw [if_neg (filled ∘ String.isEmpty_iff.mp)]

structure FieldTagsKept (before after : FieldTags) : Prop where
  version : TextKept before.version after.version
  filename : TextKept before.filename after.filename
  description : TextKept before.description after.description
  build : TextKept before.build after.build
  date : TextKept before.date after.date

structure EnumTagsKept (before after : EnumTags) : Prop where
  filename : TextKept before.filename after.filename
  description : TextKept before.description after.description
  date : TextKept before.date after.date
  rtVersion : TextKept before.rtVersion after.rtVersion
  dtVersion : TextKept before.dtVersion after.dtVersion

section
variable {σ τ : Type} [Store σ] [Store τ]

structure TagsAlike (related : σ → τ → Prop) : Prop where
  id : ∀ id adopt, Agree related (Store.checkId id adopt) (Store.checkId id adopt)
  fieldTags : ∀ {change}, (∀ tags, FieldTagsKept tags (change tags)) →
    Agree related (Store.setFieldTags change) (Store.setFieldTags change)
  enumTags : ∀ {change}, (∀ tags, EnumTagsKept tags (change tags)) →
    Agree related (Store.setEnumTags change) (Store.setEnumTags change)

/-- Two stores take in definitions and tables alike. Only fields that are new get targets to ripple to. -/
structure UpdatesAlike (related : σ → τ → Prop) (New : Int16 → Prop) : Prop extends TagsAlike related where
  field : ∀ field, Relates related (fun _ => New field.fid) (Store.addField field) (Store.addField field)
  table : ∀ references values,
    Agree related (Store.addTable references values) (Store.addTable references values)
  ripples : ∀ {ripples}, (∀ ripple ∈ ripples, New ripple.1) → ∀ {state state'}, related state state' →
    related (Store.resolveRipples ripples state) (Store.resolveRipples ripples state')

namespace TagsAlike

variable {related : σ → τ → Prop} (tags : TagsAlike related)
include tags

theorem applyCommonTag (line : Nat) (kind : DictionaryKind) (adopt : Bool) (name value : String) :
    Agree related (applyCommonTag line kind adopt name value)
      (applyCommonTag line kind adopt name value) := by
  unfold Dictionary.applyCommonTag
  split
  · exact .bind (tagNumber_agree _ _ _ _) fun _ _ =>
      .ite (fun _ => onLine_relates (.throw _) line) fun _ => .pure trivial
  · exact .bind (tagNumber_agree _ _ _ _) fun _ _ => onLine_relates (tags.id _ adopt) line
  · exact .pure trivial

-- Each tag sets one text once and leaves the others.
theorem applyFieldTag (line : Nat) (name value : String) :
    Agree related (applyFieldTag line name value) (applyFieldTag line name value) := by
  refine .bind (tags.applyCommonTag _ _ _ _ _) fun _ _ => ?_
  split
  case h_6 => exact .pure trivial
  all_goals
    refine tags.fieldTags fun tags => ?_
    constructor <;> first | exact textKept_setOnce _ _ | exact .refl _

theorem applyEnumTag (line : Nat) (name value : String) :
    Agree related (applyEnumTag line name value) (applyEnumTag line name value) := by
  refine .bind (tags.applyCommonTag _ _ _ _ _) fun _ _ => ?_
  split
  case h_6 => exact .pure trivial
  all_goals
    refine tags.enumTags fun tags => ?_
    constructor <;> first | exact textKept_setOnce _ _ | exact .refl _

theorem applyFieldSummary (element : ElementList.Entry) :
    Agree related (applyFieldSummary element) (applyFieldSummary element) := by
  unfold Dictionary.applyFieldSummary
  split
  · exact lift_agree _
  · exact .bind (lift_agree _) fun _ _ => tags.id _ _
  · refine .bind (lift_agree _) fun _ _ => tags.fieldTags fun tags => ?_
    constructor <;> first | exact textKept_setOnce _ _ | exact .refl _
  · exact .pure trivial

theorem applyEnumSummary (element : ElementList.Entry) :
    Agree related (applyEnumSummary element) (applyEnumSummary element) := by
  unfold Dictionary.applyEnumSummary
  split
  case h_1 => exact lift_agree _
  case h_2 => exact .bind (lift_agree _) fun _ _ => tags.id _ _
  case h_5 => exact .pure trivial
  all_goals
    refine .bind (lift_agree _) fun _ _ => tags.enumTags fun tags => ?_
    constructor <;> first | exact textKept_setOnce _ _ | exact .refl _

end TagsAlike

/-! ## Definitions and tables -/

namespace UpdatesAlike

variable {related : σ → τ → Prop} {New : Int16 → Prop} (updates : UpdatesAlike related New)
include updates

-- A field that a file lets ripple was defined by the same file, so it is new.
theorem addFieldLines {ripples : List (Int16 × String)} (new : ∀ ripple ∈ ripples, New ripple.1)
    (lines : List (Line × Nat)) :
    Relates related (fun ripples => ∀ ripple ∈ ripples, New ripple.1) (addFieldLines ripples lines)
      (addFieldLines ripples lines) := by
  induction lines generalizing ripples with
  | nil => exact .pure fun ripple member => new ripple (List.mem_reverse.mp member)
  | cons line rest ih =>
    obtain ⟨line, number⟩ := line
    cases line with
    | nothing => exact ih new
    | tag name value => exact .bind (updates.applyFieldTag _ _ _) fun _ _ => ih new
    | words content =>
      refine .bind (scanLine_agree _ _ _) fun (field, ripple) _ => ?_
      refine .bind (onLine_relates (updates.field field) number) fun _ isNew => ?_
      cases ripple with
      | some acronym => exact ih (List.forall_mem_cons.mpr ⟨isNew, new⟩)
      | none => exact ih new

theorem parseFields (text : Bytes) : Agree related (parseFields text) (parseFields text) :=
  transaction_relates (.bind (updates.addFieldLines (List.forall_mem_nil _) _) fun _ new _ _ same =>
    ⟨⟨rfl, updates.ripples new same⟩, fun _ _ _ => trivial⟩)

theorem addPending (line : Nat) (pending : PendingTable) :
    Agree related (addPending line pending) (addPending line pending) :=
  onLine_relates (updates.table _ _) line

theorem closeTable (line : Nat) (pending : PendingTable) :
    Agree related (closeTable line pending) (closeTable line pending) :=
  .ite (fun _ => .pure trivial) fun _ => .bind (updates.addPending line pending) fun _ _ => .pure trivial

theorem addEnumLines (pending : PendingTable) (lines : List (Line × Nat)) :
    Agree related (addEnumLines pending lines) (addEnumLines pending lines) := by
  induction lines generalizing pending with
  | nil => exact .pure trivial
  | cons line rest ih =>
    obtain ⟨line, number⟩ := line
    cases line with
    | nothing => exact ih pending
    | tag name value => exact .bind (updates.applyEnumTag _ _ _) fun _ _ => ih pending
    | words content =>
      refine .bind (scanLine_agree _ _ _) fun found _ => ?_
      cases found with
      | value value label => exact ih _
      | reference acronym fid =>
        refine .bind (updates.closeTable number pending) fun pending _ => ?_
        cases fid with
        | some fid => exact ih _
        | none => exact .throw _

theorem parseEnums (text : Bytes) : Agree related (parseEnums text) (parseEnums text) := by
  refine transaction_relates (.bind (updates.addEnumLines _ _) fun pending _ => ?_)
  have last := updates.addPending (Line.ofText text).length pending
  have unfilled : Agree related (onLine (Line.ofText text).length (throw .noEnumTable) : Store.Update σ Unit)
      (onLine (Line.ofText text).length (throw .noEnumTable) : Store.Update τ Unit) := onLine_relates (.throw _) _
  exact .ite (fun _ => unfilled.bind fun _ _ => last) fun _ => last

theorem addFieldRows (context : Context) (verbosity : Verbosity) (count : Nat) (rows : List EntryValue) :
    Agree related (addFieldRows context verbosity count rows)
      (addFieldRows context verbosity count rows) := by
  induction rows generalizing count with
  | nil => exact .pure trivial
  | cons row rest ih =>
    cases row with
    | container type row => exact .bind (lift_agree _) fun field _ => .bind (updates.field field) fun _ _ => ih _
    | _ => exact ih count

theorem addEnumRows (context : Context) (verbosity : Verbosity) (count : Nat) (rows : List EntryValue) :
    Agree related (addEnumRows context verbosity count rows)
      (addEnumRows context verbosity count rows) := by
  induction rows generalizing count with
  | nil => exact .pure trivial
  | cons row rest ih =>
    cases row with
    | container type row => exact .bind (lift_agree _) fun _ _ => .bind (updates.table _ _) fun _ _ => ih _
    | _ => exact ih count

theorem decodeFields (verbosity : Verbosity) (part : Bytes) :
    Agree related (decodeFields verbosity part) (decodeFields verbosity part) :=
  .bind (lift_agree _) fun _ _ => .bind (checkRows_agree _) fun _ _ =>
    .bind (applyEach_agree updates.applyFieldSummary _) fun _ _ =>
      .bind (rowContext_agree _) fun _ _ => updates.addFieldRows _ _ _ _

theorem decodeEnums (verbosity : Verbosity) (part : Bytes) :
    Agree related (decodeEnums verbosity part) (decodeEnums verbosity part) :=
  .bind (lift_agree _) fun _ _ => .bind (checkRows_agree _) fun _ _ =>
    .bind (applyEach_agree updates.applyEnumSummary _) fun _ _ =>
      .bind (rowContext_agree _) fun _ _ => updates.addEnumRows _ _ _ _

/-- What adds to two stores leaves them related, whether it succeeds or fails. -/
theorem run {call : Call} (adds : call.adds) {state : σ} {state' : τ} (same : related state state') :
    related (call.run state) (call.run state') := by
  cases call with
  | addField field => exact (updates.field field _ _ same).1.after
  | addTable references values => exact (updates.table references values _ _ same).1.after
  | parseFields text => exact (updates.parseFields text _ _ same).1.after
  | parseEnums text => exact (updates.parseEnums text _ _ same).1.after
  | decodeFields verbosity part => exact (updates.decodeFields verbosity part _ _ same).1.after
  | decodeEnums verbosity part => exact (updates.decodeEnums verbosity part _ _ same).1.after
  | withNames _ | clear => cases adds

end UpdatesAlike

end

end MarketWire.Dictionary
