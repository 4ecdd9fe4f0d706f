import MarketWire.Container.ElementList
import MarketWire.Container.FieldList
import MarketWire.Proofs.Arrays

/-! Records, written and read back.

A record is its header, the values of its set definition and its standard entries. Each part tells
where it ends, so a reader that knows the set definition gives all parts back.
-/

set_option autoImplicit false

namespace MarketWire

namespace Read

theorem ofExcept_append {α : Type} {reader : Read Bytes} {compute : Bytes → Except DecodeError α}
    {form taken : Bytes} (takes : ∀ rest, reader (form ++ rest) = .ok taken rest) {value : α}
    (h : all (do ofExcept (compute (← reader))) form = .ok value) (rest : Bytes) :
    (do ofExcept (compute (← reader)) : Read α) (form ++ rest) = .ok value rest := by
  have alone := takes []
  rw [List.append_nil] at alone
  unfold all EStateM.run at h
  rw [Program.bind_ok alone] at h
  rw [Program.bind_ok (takes rest)]
  cases computed : compute taken with
  | error error =>
    rw [computed] at h
    cases h
  | ok found =>
    rw [computed] at h
    cases h
    rfl

end Read

namespace Primitive

/-! ## Values of set definitions -/

theorem writeFixedSigned_length (value : Primitive) (type : DataType) (width : Nat) :
    Write.Extends (writeFixedSigned value type width) fun _ _ added => added.length = width := by
  unfold writeFixedSigned
  dsimp only
  split
  · refine Write.Extends.ite (fun _ => ?_) fun _ => Write.Extends.throw _
    exact (Width.writeSigned_emits _ _).mono fun _ _ _ known => known ▸ Bytes.length_ofNat _ _
  · exact Write.Extends.throw _

theorem writeFixedUnsigned_length (value : Primitive) (type : DataType) (width : Nat) :
    Write.Extends (writeFixedUnsigned value type width) fun _ _ added => added.length = width := by
  unfold writeFixedUnsigned
  dsimp only
  split
  · refine Write.Extends.ite (fun _ => ?_) fun _ => Write.Extends.throw _
    exact (Width.writeUnsigned_emits _ _).mono fun _ _ _ known => known ▸ Bytes.length_ofNat _ _
  · exact Write.Extends.throw _

theorem encodeFixed_length (value : Primitive) {type : DataType} {width : Nat}
    (layout : type.setLayout? = some (.fixed width)) :
    Write.Extends (encodeFixed value type width) fun _ _ added => added.length = width := by
  unfold encodeFixed
  suffices Write.Extends _ fun _ _ added => added.length = width by
    apply ((Write.ensure_emits width).then_extends fun _ => this).mono
    rintro _ _ _ ⟨_, length, rfl⟩
    exact length
  -- Each type of a fixed width has its own width.
  cases type <;> cases layout
  case int1 | int2 | int4 | int8 => exact writeFixedSigned_length value _ _
  case uint1 | uint2 | uint4 | uint8 => exact writeFixedUnsigned_length value _ _
  all_goals
    cases value with
    | _ =>
      first
      | exact Write.Extends.throw _
      | exact (Write.bytes_emits _).mono fun _ _ _ known => known ▸ rfl

/-- A value of a set definition that can be read from its bytes alone is read from the bytes in front
of all others. -/
theorem encodeSet_reads (value : Primitive) (type : DataType) :
    Write.Extends (encodeSet value type) fun _ _ added => ∀ back,
      Read.all (readSet type) added = .ok back → ∀ rest, readSet type (added ++ rest) = .ok back rest := by
  unfold encodeSet readSet
  cases layout : type.setLayout? with
  | none => exact Write.Extends.throw _
  | some form =>
    cases form with
    | fixed width =>
      apply (encodeFixed_length value layout).mono
      intro _ _ added length back read rest
      exact Read.ofExcept_append (Read.bytes_append length) read rest
    | shortFrame =>
      apply (LengthSlot.around_extends .byte value.encode_emits).mono
      rintro _ _ _ ⟨_, rfl, fits, rfl⟩ back read rest
      exact Read.ofExcept_append (Read.framed_frame fits) read rest
    | longFrame =>
      apply (LengthSlot.around_extends .bits16 value.encode_emits).mono
      rintro _ _ _ ⟨_, rfl, fits, rfl⟩ back read rest
      exact Read.ofExcept_append (Read.framed_frame fits) read rest

end Primitive

namespace Record

/-! ## What the kinds of records have in common -/

class EntryTag (κ : Type) (τ : outParam Type) where
  type? : τ → Option DataType
  ofType : DataType → τ

instance : EntryTag Int16 Unit where
  type? _ := none
  ofType _ := ()

instance : EntryTag String DataType where
  type? := some
  ofType := id

def flagsOf (κ : Type) {Info Name : Type} [format : RecordFormat κ Info Name]
    (info setData setId standard : Bool) : UInt8 :=
  (if info then infoFlag else 0)
    ||| (if setData then format.setDataFlag ||| (if setId then setIdFlag else 0) else 0)
    ||| (if standard then format.standardFlag else 0)

class LawfulRecordFormat (κ : Type) (Info Name τ : outParam Type) [format : RecordFormat κ Info Name]
    [tag : EntryTag κ τ] where
  infoForm : Info → Bytes
  InfoFits : Info → Prop
  keyForm : κ → Bytes
  KeyFits : κ → Prop
  writeInfo_extends : ∀ info, Write.Extends (format.writeInfo info) fun _ _ added =>
    added = infoForm info ∧ InfoFits info
  readInfo_infoForm : ∀ info, InfoFits info → Read.all format.readInfo (infoForm info) = .ok info
  writeKey_extends : ∀ key, Write.Extends (format.writeKey key) fun _ _ added =>
    added = keyForm key ∧ KeyFits key
  readName_keyForm : ∀ key, KeyFits key → ∀ rest,
    format.readName (keyForm key ++ rest) = .ok (format.nameOf key) rest
  type?_isSome : ∀ own, (tag.type? own).isSome = format.describesItself
  type?_ofType : ∀ type,
    tag.type? (tag.ofType type) = if format.describesItself then some type else none
  flags_tell : ∀ info setData setId standard : Bool,
    decide (flagsOf κ info setData setId standard &&& infoFlag ≠ 0) = info ∧
      decide (flagsOf κ info setData setId standard &&& format.setDataFlag ≠ 0) = setData ∧
      decide (flagsOf κ info setData setId standard &&& setIdFlag ≠ 0) = (setData && setId) ∧
      decide (flagsOf κ info setData setId standard &&& format.standardFlag ≠ 0) = standard

theorem int16_ofNat (n : Int16) (rest : Bytes) :
    Read.int16 (Bytes.ofNat 2 n.toUInt16.toNat ++ rest) = .ok n rest := by
  unfold Read.int16
  rw [Program.bind_ok (Read.uint16_ofNat n.toUInt16 rest)]
  rfl

instance : LawfulRecordFormat Int16 FieldList.Info Int16 Unit where
  infoForm info := Varying.form15 info.dictionaryId.toNat ++ Bytes.ofNat 2 info.listNumber.toUInt16.toNat
  InfoFits info := info.dictionaryId.toNat ≤ Varying.max15
  keyForm fid := Bytes.ofNat 2 fid.toUInt16.toNat
  KeyFits _ := True
  writeInfo_extends info := by
    apply (Write.Extends.bind (Varying.write15_extends info.dictionaryId.toNat) fun _ =>
      Write.number_emits 2 info.listNumber.toUInt16.toNat).mono
    rintro _ _ _ ⟨_, _, _, ⟨rfl, fits⟩, rfl, rfl⟩
    exact ⟨rfl, fits⟩
  readInfo_infoForm info fits := by
    have number := int16_ofNat info.listNumber []
    rw [List.append_nil] at number
    refine @Read.all_ok _ _ _ [] _ ?_
    change (Varying.read15 >>= _) _ = _
    rw [Program.bind_ok (Varying.read15_form15 fits _), Program.bind_ok number, UInt16.ofNat_toNat]
    rfl
  writeKey_extends fid := (Write.number_emits 2 fid.toUInt16.toNat).mono fun _ _ _ same => ⟨same, trivial⟩
  readName_keyForm fid _ := int16_ofNat fid
  type?_isSome _ := rfl
  type?_ofType _ := rfl
  flags_tell := by decide

instance : LawfulRecordFormat String ElementList.Info Bytes DataType where
  infoForm listNumber := Bytes.ofNat 2 listNumber.toNat
  InfoFits _ := True
  keyForm name := LengthForm.bits15.frame (Bytes.ofString name)
  KeyFits name := (Bytes.ofString name).length ≤ LengthForm.bits15.max
  writeInfo_extends listNumber :=
    (Write.number_emits 2 listNumber.toNat).mono fun _ _ _ same => ⟨same, trivial⟩
  readInfo_infoForm listNumber _ := Read.all_front (Read.uint16_ofNat listNumber)
  writeKey_extends name := Write.framed_extends .bits15 (Bytes.ofString name)
  readName_keyForm _ fits := Read.framed_frame fits
  type?_isSome _ := rfl
  type?_ofType _ := rfl
  flags_tell := by decide

section
variable {κ Info Name τ : Type} [format : RecordFormat κ Info Name] [tag : EntryTag κ τ]

/-! ## Standard entries -/

structure Item (κ τ : Type) where
  key : κ
  tag : τ
  payload : Bytes
  deriving DecidableEq, Repr

def Item.hasPayload (item : Item κ τ) : Bool := Record.hasPayload (tag.type? item.tag)

def Item.entry (context : Context) (item : Item κ τ) : Entry Name :=
  standardEntry κ context (format.nameOf item.key) ((tag.type? item.tag).map (·.code)) item.payload

variable [lawful : LawfulRecordFormat κ Info Name τ]

namespace Item

def label (item : Item κ τ) : Bytes :=
  lawful.keyForm item.key ++ (tag.type? item.tag).elim [] fun type => [type.code]

def form (item : Item κ τ) : Bytes :=
  item.label ++ if item.hasPayload then LengthForm.bits16.frame item.payload else []

structure Fits (item : Item κ τ) : Prop where
  key : lawful.KeyFits item.key
  length : item.payload.length ≤ LengthForm.bits16.max
  payload : item.hasPayload = false → item.payload = []

theorem form_of_hasPayload {item : Item κ τ} (filled : item.hasPayload) :
    item.form = item.label ++ LengthForm.bits16.frame item.payload := by
  unfold form
  rw [filled, if_pos rfl]

theorem Fits.of_hasPayload {item : Item κ τ} (filled : item.hasPayload)
    (key : lawful.KeyFits item.key) (length : item.payload.length ≤ LengthForm.bits16.max) :
    item.Fits :=
  ⟨key, length, fun none => absurd (filled.symm.trans none) (by decide)⟩

theorem writeLabel_extends (item : Item κ τ) :
    Write.Extends (writeLabel item.key (tag.type? item.tag)) fun _ _ added =>
      added = item.label ∧ lawful.KeyFits item.key := by
  unfold writeLabel label
  cases tag.type? item.tag with
  | none =>
    apply (Write.Extends.bind (lawful.writeKey_extends item.key) fun _ => Write.Extends.pure ()).mono
    rintro _ _ _ ⟨_, _, _, ⟨rfl, fits⟩, ⟨-, rfl⟩, rfl⟩
    exact ⟨rfl, fits⟩
  | some type =>
    apply (Write.Extends.bind (lawful.writeKey_extends item.key) fun _ =>
      Write.byte_emits type.code).mono
    rintro _ _ _ ⟨_, _, _, ⟨rfl, fits⟩, rfl, rfl⟩
    exact ⟨rfl, fits⟩

theorem readFramed_form {item : Item κ τ} (fits : item.Fits) (rest : Bytes) :
    readFramed κ (item.form ++ rest) =
      .ok (format.nameOf item.key, (tag.type? item.tag).map (·.code), item.payload) rest := by
  have told := lawful.type?_isSome item.tag
  have payload := fits.payload
  unfold readFramed form label
  unfold hasPayload at payload ⊢
  rw [List.append_assoc, List.append_assoc, Program.bind_ok (lawful.readName_keyForm _ fits.key _)]
  cases type : tag.type? item.tag with
  | none =>
    rw [type] at told
    rw [← told]
    exact Program.bind_ok (Read.framed_frame fits.length rest)
  | some type' =>
    rw [type] at told payload
    rw [← told]
    change (Read.when true Read.byte >>= _) (type'.code :: _) = _
    rw [Program.bind_ok (Read.when_true (Read.byte_cons _ _))]
    -- The code of a type tells the type, so the payload is read exactly when it was written.
    by_cases blank : type' = .noData
    · subst blank
      rw [payload rfl]
      rfl
    · have other : some type'.code ≠ some DataType.noData.code :=
        fun same => blank (DataType.code_injective (Option.some.inj same))
      have written : Record.hasPayload (some type') = true := by simp [Record.hasPayload, blank]
      rw [if_neg other, written, if_pos rfl]
      exact Program.bind_ok (Read.framed_frame fits.length rest)

theorem step_form {item : Item κ τ} (fits : item.Fits) (context : Context) (rest : Bytes) :
    step κ context (item.form ++ rest) = (item.entry context, some rest) := by
  unfold step
  rw [readFramed_form fits]
  rfl

end Item

/-! ## Headers and set-defined values -/

def Plan.setEntries (plan : Plan κ Info) : Array (SetEntry κ) :=
  (plan.activeSet.map (·.entries)).getD #[]

namespace Plan

variable (plan : Plan κ Info)

def infoForm : Bytes := plan.info.elim [] fun info => LengthForm.byte.frame (lawful.infoForm info)

def idForm : Bytes :=
  plan.activeSet.elim [] fun definition =>
    if definition.id ≠ 0 then Varying.form15 definition.id.toNat else []

def head : Bytes := plan.flags :: (plan.infoForm ++ plan.idForm)

/-- The length of the set-defined values is told when standard entries follow them. -/
def framesValues : Bool := plan.activeSet.isSome && plan.standard

def valuesForm (values : List Primitive) : Bytes :=
  (plan.setEntries.toList.zip values).flatMap fun pair => pair.2.setForm pair.1.type

def setPart (values : List Primitive) : Bytes :=
  if plan.framesValues then LengthForm.bits15.frame (plan.valuesForm values) else plan.valuesForm values

def lead (values : List Primitive) : Bytes := plan.head ++ plan.setPart values

def form (values : List Primitive) (items : List (Item κ τ)) : Bytes :=
  plan.lead values ++ ((if plan.standard then Bytes.ofNat 2 items.length else []) ++ items.flatMap (·.form))

structure HeadFits : Prop where
  length : ∀ info ∈ plan.info, (lawful.infoForm info).length ≤ LengthForm.byte.max
  info : ∀ info ∈ plan.info, lawful.InfoFits info
  id : ∀ definition ∈ plan.activeSet, definition.id.toNat ≤ Varying.max15

structure Fits (values : List Primitive) (items : List (Item κ τ)) : Prop where
  head : plan.HeadFits
  frame : plan.framesValues → (plan.valuesForm values).length ≤ LengthForm.bits15.max
  standard : plan.standard = false → items = []
  count : items.length ≤ maxCount
  each : ∀ item ∈ items, item.Fits

include lawful in
theorem flags_tell :
    decide (plan.flags &&& infoFlag ≠ 0) = plan.info.isSome ∧
      decide (plan.flags &&& format.setDataFlag ≠ 0) = plan.activeSet.isSome ∧
      decide (plan.flags &&& setIdFlag ≠ 0) = plan.activeSet.any (·.id ≠ 0) ∧
      decide (plan.flags &&& format.standardFlag ≠ 0) = plan.standard := by
  have same : plan.flags = flagsOf κ plan.info.isSome plan.activeSet.isSome
      (plan.activeSet.any (·.id ≠ 0)) plan.standard := by
    unfold flags flagsOf
    cases plan.activeSet <;> simp
  obtain ⟨info, setData, setId, standard⟩ := lawful.flags_tell plan.info.isSome
    plan.activeSet.isSome (plan.activeSet.any (·.id ≠ 0)) plan.standard
  rw [same]
  refine ⟨info, setData, setId.trans ?_, standard⟩
  cases plan.activeSet <;> rfl

end Plan

section
variable {plan : Plan κ Info} {values : List Primitive} {items : List (Item κ τ)}

theorem readInfo_infoForm (fits : plan.HeadFits) (rest : Bytes) :
    Read.when plan.info.isSome (readInfoBlock κ) (plan.infoForm ++ rest) = .ok plan.info rest := by
  have length := fits.length
  have known := fits.info
  unfold Plan.infoForm
  cases given : plan.info with
  | none => rfl
  | some info =>
    rw [given] at length known
    have block : readInfoBlock κ (LengthForm.byte.frame (lawful.infoForm info) ++ rest) =
        .ok info rest := by
      unfold readInfoBlock
      rw [Program.bind_ok (Read.framed_frame (length info rfl) rest),
        lawful.readInfo_infoForm info (known info rfl)]
      rfl
    exact Read.when_true block

theorem readSetPart_ok {definition : SetDefinition κ} (active : plan.activeSet = some definition)
    (fits : plan.Fits values items) {rest : Bytes} (last : plan.standard = false → rest = []) :
    (do
      let id ← if decide (definition.id ≠ 0) then Varying.read15 else pure 0
      let bytes ← if plan.standard then Read.framed .bits15 else Read.rest
      return (UInt16.ofNat id, bytes) : Read (UInt16 × Bytes))
        (plan.idForm ++ (plan.setPart values ++ rest)) =
      .ok (definition.id, plan.valuesForm values) rest := by
  have bytes (id : Nat) : (do
      let bytes ← if plan.standard then Read.framed .bits15 else Read.rest
      return (UInt16.ofNat id, bytes) : Read (UInt16 × Bytes)) (plan.setPart values ++ rest) =
        .ok (UInt16.ofNat id, plan.valuesForm values) rest := by
    have length := fits.frame
    unfold Plan.setPart
    unfold Plan.framesValues at length ⊢
    rw [active, Option.isSome_some, Bool.true_and] at length ⊢
    cases standard : plan.standard with
    | true => exact Program.bind_ok (Read.framed_frame (length standard) rest)
    | false =>
      rw [last standard, List.append_nil]
      rfl
  unfold Plan.idForm
  rw [active, Option.elim_some]
  by_cases zero : definition.id = 0
  · rw [zero]
    exact bytes 0
  · have number := Varying.read15_form15 (fits.head.id definition active) (plan.setPart values ++ rest)
    rw [if_pos zero, decide_eq_true zero]
    refine (Program.bind_ok number).trans ((bytes definition.id.toNat).trans ?_)
    rw [UInt16.ofNat_toNat]

theorem readSetBlock (fits : plan.Fits values items) {rest : Bytes}
    (last : plan.standard = false → rest = []) :
    (Read.when plan.activeSet.isSome do
      let id ← if plan.activeSet.any (·.id ≠ 0) then Varying.read15 else pure 0
      let bytes ← if plan.standard then Read.framed .bits15 else Read.rest
      return (UInt16.ofNat id, bytes) : Read (Option (UInt16 × Bytes)))
        (plan.idForm ++ (plan.setPart values ++ rest)) =
      .ok (plan.activeSet.map fun definition => (definition.id, plan.valuesForm values)) rest := by
  cases active : plan.activeSet with
  | none => simp [Plan.idForm, Plan.setPart, Plan.framesValues, Plan.valuesForm, Plan.setEntries, active,
      Read.when_false]
  | some definition =>
    have read := readSetPart_ok active fits last
    exact Read.when_true read

theorem setEntries_known {context : Context}
    (known : ∀ definition ∈ plan.activeSet, format.findSet context definition.id = some definition)
    (bytes : Bytes) :
    (match plan.activeSet.map fun definition => (definition.id, bytes) with
      | some (id, bytes) => setBlock κ context id bytes
      | none => []) = Entries.readEach setStep plan.setEntries.toList bytes := by
  unfold Plan.setEntries
  cases active : plan.activeSet with
  | none => rfl
  | some definition =>
    change setBlock κ context definition.id bytes = _
    unfold setBlock
    rw [known definition active]
    rfl

theorem read_items (fits : ∀ item ∈ items, item.Fits) (context : Context) :
    Entries.read (step κ context) items.length (items.flatMap (·.form)) =
      items.map (·.entry context) :=
  Entries.read_flatMap fun item member => Item.step_form (fits item member) context

/-- A record comes back from its bytes, its leading entries as they are read by their definition. -/
theorem decode_form (fits : plan.Fits values items) {context : Context}
    (known : ∀ definition ∈ plan.activeSet, format.findSet context definition.id = some definition) :
    decode κ context (plan.form values items) =
      .ok ⟨plan.info, plan.activeSet.map (·.id), items.length,
        Entries.readEach setStep plan.setEntries.toList (plan.valuesForm values)
          ++ items.map (·.entry context)⟩ := by
  rw [← setEntries_known known, ← read_items fits.each]
  suffices readContent κ context (plan.form values items) = .ok _ [] from by
    unfold decode
    rw [if_neg (by simp [Plan.form, Plan.lead, Plan.head])]
    exact Read.all_ok this
  obtain ⟨hasInfo, hasSet, hasId, hasStandard⟩ := plan.flags_tell
  have last : plan.standard = false →
      (if plan.standard then Bytes.ofNat 2 items.length else []) ++ items.flatMap (·.form) = [] := by
    intro none
    rw [none, fits.standard none]
    rfl
  unfold readContent Plan.form Plan.lead Plan.head
  simp only [List.cons_append, List.append_assoc]
  rw [Program.bind_ok (Read.byte_cons _ _)]
  simp only [hasInfo, hasSet, hasId, hasStandard]
  rw [Program.bind_ok (readInfo_infoForm fits.head _), Program.bind_ok (readSetBlock fits last)]
  cases standard : plan.standard with
  | true =>
    obtain ⟨count, counted, number⟩ := Read.count_ofNat fits.count (items.flatMap (·.form))
    refine (Program.bind_ok (Program.map_ok number)).trans ?_
    change EStateM.Result.ok _ [] = _
    rw [counted, Option.map_map]
    rfl
  | false =>
    rw [fits.standard standard]
    change EStateM.Result.ok _ [] = _
    rw [Option.map_map]
    rfl

end

/-! ## Set-defined entries -/

def setEntry (expected : SetEntry κ) (value : Primitive) : Except DecodeError (Entry Name) := do
  let form := value.setForm expected.type
  let back ← Read.all (Primitive.readSet expected.type) form
  return ⟨format.nameOf expected.key, expected.type.base, .primitive back, form⟩

/-- What is read from the bytes of a value alone is read from them in front of all others. -/
def ReadsAlone (expected : SetEntry κ) (value : Primitive) : Prop :=
  ∀ back, Read.all (Primitive.readSet expected.type) (value.setForm expected.type) = .ok back →
    ∀ rest, Primitive.readSet expected.type (value.setForm expected.type ++ rest) = .ok back rest

theorem setStep_ok {expected : SetEntry κ} {form rest : Bytes} {value : Primitive}
    (read : Primitive.readSet expected.type (form ++ rest) = .ok value rest) :
    setStep expected (form ++ rest) =
      (⟨format.nameOf expected.key, expected.type.base, .primitive value, form⟩, some rest) := by
  have behind := Primitive.readSet_eq_ok read
  -- The bytes of an entry are those in front of what is left behind it.
  have taken : (form ++ rest).take (Primitive.setSize expected.type (form ++ rest)) = form := by
    apply List.append_cancel_right
    exact (congrArg _ behind).trans (List.take_append_drop _ _)
  unfold setStep
  rw [read]
  dsimp only
  rw [taken]

theorem setEntry_eq_ok {expected : SetEntry κ} {value : Primitive} {entry : Entry Name}
    (h : setEntry expected value = .ok entry) :
    ∃ back, Read.all (Primitive.readSet expected.type) (value.setForm expected.type) = .ok back ∧
      entry = ⟨format.nameOf expected.key, expected.type.base, .primitive back,
        value.setForm expected.type⟩ := by
  unfold setEntry at h
  dsimp only at h
  cases back : Read.all (Primitive.readSet expected.type) (value.setForm expected.type) with
  | error error =>
    rw [back] at h
    cases h
  | ok found =>
    rw [back] at h
    cases h
    exact ⟨found, rfl, rfl⟩

theorem readEach_setEntry {pairs : List (SetEntry κ × Primitive)}
    (alone : ∀ pair ∈ pairs, ReadsAlone pair.1 pair.2) {entries : List (Entry Name)}
    (read : pairs.map (fun pair => setEntry pair.1 pair.2) = entries.map .ok) :
    Entries.readEach setStep (pairs.map Prod.fst) (pairs.flatMap fun pair => pair.2.setForm pair.1.type) =
      entries := by
  induction pairs generalizing entries with
  | nil =>
    cases entries with
    | nil => rfl
    | cons entry entries => cases read
  | cons pair pairs ih =>
    cases entries with
    | nil => cases read
    | cons entry entries =>
      obtain ⟨first, others⟩ := List.cons.inj read
      obtain ⟨back, found, rfl⟩ := setEntry_eq_ok first
      have behind := ih (fun pair member => alone pair (List.mem_cons_of_mem _ member)) others
      have here := alone pair List.mem_cons_self back found
        (pairs.flatMap fun pair => pair.2.setForm pair.1.type)
      rw [List.map_cons, List.flatMap_cons, Entries.readEach_cons, setStep_ok here]
      exact congrArg _ behind

end

end Record

end MarketWire
