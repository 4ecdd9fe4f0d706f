import MarketWire.Proofs.EnumParts

/-! Definitions and tables that arrive together.

The parts of both kinds may reach a receiver in any order that keeps the order of each kind: taking in
definitions leaves the tables alone, and taking in tables leaves the definitions alone, whether a table
refers to fields that have arrived or not.
-/

set_option autoImplicit false

namespace MarketWire.Dictionary

inductive Delivery where
  | fields (wanted : Verbosity) (part : Part)
  | enums (wanted : Verbosity) (part : Part)

namespace Delivery

def decode : Delivery → Update Nat
  | fields wanted part => decodeFields wanted part.bytes
  | enums wanted part => decodeEnums wanted part.bytes

def isFull : Delivery → Bool
  | fields wanted _ => wanted.includes .normal
  | enums wanted _ => wanted.includes .verbose

def fieldPart? : Delivery → Option Part
  | fields _ part => some part
  | enums _ _ => none

def enumPart? : Delivery → Option Part
  | fields _ _ => none
  | enums _ part => some part

end Delivery

def takeIn : List Delivery → Update Unit
  | [] => pure ()
  | delivery :: rest => do
    let _ ← delivery.decode
    takeIn rest

variable {dictionary state after : Dictionary} {told isFirst : Bool}

/-! ## Frames -/

theorem FieldsArrived.of_sameFields {left : List FieldDefinition}
    (arrived : FieldsArrived dictionary told isFirst left state) (same : SameFields state after)
    (id : after.id = dictionary.id) : FieldsArrived dictionary told isFirst left after where
  suffix := arrived.suffix
  get? fid := by
    unfold Dictionary.get?
    rw [same.definitions]
    exact arrived.get? fid
  version := same.fieldTags ▸ arrived.version
  id _ := id

theorem TablesArrived.of_sameTables {left : List (EnumTable × Nat)}
    (arrived : TablesArrived dictionary told isFirst left state) (same : SameTables state after)
    (id : after.id = dictionary.id) : TablesArrived dictionary told isFirst left after where
  tables := same.tables ▸ arrived.tables
  rtVersion := same.enumTags ▸ arrived.rtVersion
  dtVersion := same.enumTags ▸ arrived.dtVersion
  id _ := id

/-! ## Both kinds of parts -/

section
variable {fieldsSent enumsSent : Verbosity} {fieldColumns enumColumns : Bytes}

/-- What is left of both kinds of parts arrives in the order in which it is delivered. -/
theorem takeIn_ok (wellFormed : dictionary.WellFormed) (fieldsFull : fieldsSent.includes .normal)
    (enumsFull : enumsSent.includes .verbose)
    (fieldsDefined : Column.encodedDefinition (FieldDefinition.columns fieldsSent) = .ok fieldColumns)
    (enumsDefined : Column.encodedDefinition (EnumTable.columns enumsSent) = .ok enumColumns)
    (fieldsSummarized : Summary.Fits dictionary.fieldElements)
    (enumsSummarized : Summary.Fits dictionary.enumElements)
    {deliveries : List Delivery} (full : ∀ delivery ∈ deliveries, delivery.isFull)
    {fieldsFirst enumsFirst : Bool} {fields : List FieldDefinition} {tables : List (EnumTable × Nat)}
    (conveysFields : (dictionary.fieldEdition fieldsSent).Conveys (fieldSource fieldsSent) fieldColumns
      (Summary.form dictionary.fieldElements) fieldsFirst fields
      (deliveries.filterMap Delivery.fieldPart?))
    (conveysEnums : (dictionary.enumEdition enumsSent).Conveys (enumSource enumsSent) enumColumns
      (Summary.form dictionary.enumElements) enumsFirst tables
      (deliveries.filterMap Delivery.enumPart?))
    (arrivedFields : FieldsArrived dictionary true fieldsFirst fields state)
    (arrivedTables : TablesArrived dictionary true enumsFirst tables state)
    (agrees : Agrees dictionary state) :
    ∃ received, takeIn deliveries state = .ok () received ∧
      FieldsArrived dictionary true false [] received ∧
      TablesArrived dictionary true false [] received ∧ Agrees dictionary received := by
  induction deliveries generalizing state fieldsFirst enumsFirst fields tables with
  | nil =>
    cases conveysFields
    cases conveysEnums
    exact ⟨state, rfl, arrivedFields, arrivedTables, agrees⟩
  | cons delivery rest ih =>
    obtain ⟨wants, others⟩ := List.forall_mem_cons.mp full
    -- The delivery advances one kind; of the other kind all stays as it had arrived.
    cases delivery with
    | fields wanted part =>
      have told : (fieldsSent.includes .normal && wanted.includes .normal) = true := by
        rw [fieldsFull]
        exact wants
      cases conveysFields with
      | more takes behind =>
        obtain ⟨middle, decoded, next, same⟩ := decodeFields_ok wellFormed fieldsSummarized
          fieldsDefined takes (told ▸ arrivedFields) agrees
        rw [told] at next
        obtain ⟨received, taken, all⟩ := ih others behind conveysEnums next
          (arrivedTables.of_sameTables same (next.id rfl)) (agrees.after_fields decoded next same)
        refine ⟨received, ?_, all⟩
        change ((Delivery.fields wanted part).decode >>= fun _ => takeIn rest) state = _
        exact (Program.bind_ok decoded).trans taken
    | enums wanted part =>
      have told : (enumsSent.includes .verbose && wanted.includes .verbose) = true := by
        rw [enumsFull]
        exact wants
      cases conveysEnums with
      | more takes behind =>
        obtain ⟨middle, decoded, next, same, silent⟩ := decodeEnums_ok wellFormed enumsSummarized
          enumsDefined takes (told ▸ arrivedTables) agrees
        rw [told] at next
        obtain ⟨received, taken, all⟩ := ih others conveysFields behind
          (arrivedFields.of_sameFields same (next.id rfl)) next
          (agrees.after_enums decoded next silent)
        refine ⟨received, ?_, all⟩
        change ((Delivery.enums wanted part).decode >>= fun _ => takeIn rest) state = _
        exact (Program.bind_ok decoded).trans taken

end

/-- Definitions and tables that are told in full arrive unchanged, whatever sizes their parts have and
in whatever order both kinds of parts arrive. -/
theorem takeIn_interleaved {fieldsSent enumsSent : Verbosity} (reachable : Reachable dictionary)
    (based : ∀ field ∈ dictionary.toList, field.wireType.base = field.wireType)
    (fieldsFull : fieldsSent.includes .normal) (enumsFull : enumsSent.includes .verbose)
    {fieldCapacities enumCapacities : List Nat} {deliveries : List Delivery}
    (fields : (Publication.ofDictionary dictionary .fields fieldsSent).Delivers fieldCapacities
      (deliveries.filterMap Delivery.fieldPart?))
    (enums : (Publication.ofDictionary dictionary .enums enumsSent).Delivers enumCapacities
      (deliveries.filterMap Delivery.enumPart?))
    (full : ∀ delivery ∈ deliveries, delivery.isFull) :
    ∃ received, takeIn deliveries empty = .ok () received ∧
      received.toList = dictionary.toList ∧
      (∀ fid, received.tableOf? fid = dictionary.tableOf? fid) ∧
      received.tables = dictionary.tables ∧
      ∀ fid value, received.enumLabel? fid value = dictionary.enumLabel? fid value := by
  have wellFormed := reachable.wellFormed
  have tellsFields : fieldsSent.includes .minimal := by
    cases fieldsSent <;> first | rfl | cases fieldsFull
  have tellsEnums : enumsSent.includes .minimal := by
    cases enumsSent <;> first | rfl | cases enumsFull
  obtain ⟨fieldColumns, fieldsDefined, fieldsSummarized, conveysFields⟩ :=
    Edition.delivers_conveys (fieldEdition_sends wellFormed tellsFields) fields
  obtain ⟨enumColumns, enumsDefined, enumsSummarized, conveysEnums⟩ :=
    Edition.delivers_conveys (enumEdition_sends wellFormed tellsEnums) enums
  obtain ⟨received, taken, arrivedFields, arrivedTables, agrees⟩ := takeIn_ok wellFormed fieldsFull
    enumsFull fieldsDefined enumsDefined fieldsSummarized enumsSummarized full conveysFields
    conveysEnums (fieldsArrived_empty wellFormed true) (tablesArrived_empty dictionary true)
    (agrees_empty dictionary)
  have tables : received.tables = dictionary.tables := by
    rw [arrivedTables.all, funext EnumTable.conveyed_true]
    exact Array.map_id' _
  have tableOf? (fid : Int16) : received.tableOf? fid = dictionary.tableOf? fid := by
    rw [arrivedTables.tableOf? wellFormed agrees.wellFormed, funext EnumTable.conveyed_true]
    exact Option.map_id'
  refine ⟨received, taken, ?_, tableOf?, tables, fun fid value => ?_⟩
  · rw [arrivedFields.toList]
    refine (List.map_congr_left fun field member => ?_).trans (List.map_id' _)
    exact FieldDefinition.conveyed_true (based field member)
  · unfold enumLabel?
    rw [tableOf?]

/-- One of the fields of `venues` is defined, the other ones are known from tables alone. -/
def market : Dictionary :=
  let bid : FieldDefinition := { fid := 22, acronym := "BID", wireType := .real }
  let ask : FieldDefinition := { fid := -1, acronym := "ASK", wireType := .real, enumLength := 3 }
  Call.run (Call.run venues (.addField bid)) (.addField ask)

theorem market_reachable : Reachable market := by
  unfold market
  exact .call _ (.call _ venues_reachable)

/-- Two parts of each kind, the ones of one kind between the ones of the other kind. -/
theorem takeIn_market : ∃ firstTables firstFields lastTables lastFields received,
    (Publication.ofDictionary market .fields .normal).delivered [150, 150] =
      [firstFields, lastFields] ∧
    (Publication.ofDictionary market .enums .verbose).delivered [150, 150] =
      [firstTables, lastTables] ∧
    takeIn [.enums .verbose firstTables, .fields .normal firstFields, .enums .verbose lastTables,
      .fields .normal lastFields] empty = .ok () received ∧
    received.toList = market.toList ∧ received.tables = market.tables := by
  have based : ∀ field ∈ market.toList, field.wireType.base = field.wireType := by decide +kernel
  obtain ⟨fieldsComplete, twoFields⟩ :
      (Publication.ofDictionary market .fields .normal).Completes [150, 150] ∧
      ((Publication.ofDictionary market .fields .normal).delivered [150, 150]).length = 2 := by
    unfold Publication.ofDictionary fieldEdition
    rw [minFid?_eq_head?]
    decide +kernel
  obtain ⟨enumsComplete, twoEnums⟩ :
      (Publication.ofDictionary market .enums .verbose).Completes [150, 150] ∧
      ((Publication.ofDictionary market .enums .verbose).delivered [150, 150]).length = 2 := by
    decide +kernel
  have fields := fieldsComplete.delivers
  have enums := enumsComplete.delivers
  obtain ⟨firstFields, lastFields, sentFields⟩ :
      ∃ first last, (Publication.ofDictionary market .fields .normal).delivered [150, 150] =
        [first, last] := ⟨_, _, List.eq_getElem_of_length_eq_two _ twoFields⟩
  obtain ⟨firstTables, lastTables, sentTables⟩ :
      ∃ first last, (Publication.ofDictionary market .enums .verbose).delivered [150, 150] =
        [first, last] := ⟨_, _, List.eq_getElem_of_length_eq_two _ twoEnums⟩
  rw [sentFields] at fields
  rw [sentTables] at enums
  have full : ∀ delivery ∈ [Delivery.enums .verbose firstTables, .fields .normal firstFields,
      .enums .verbose lastTables, .fields .normal lastFields], delivery.isFull := by
    simp only [List.forall_mem_cons]
    exact ⟨rfl, rfl, rfl, rfl, by simp⟩
  obtain ⟨received, taken, definitions, -, tables, -⟩ :=
    takeIn_interleaved market_reachable based rfl rfl fields enums full
  exact ⟨firstTables, firstFields, lastTables, lastFields, received, sentFields, sentTables, taken,
    definitions, tables⟩

end MarketWire.Dictionary
