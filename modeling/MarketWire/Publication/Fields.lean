import MarketWire.Publication.Summary

/-! Dictionaries of field definitions in parts: a series with a row for each definition. -/

set_option autoImplicit false

namespace MarketWire

namespace FieldDefinition

/-- The columns that tell what is needed to read values. -/
def minimalColumns : List (Column FieldDefinition) :=
  [⟨"NAME", .ascii, fun field => .value (.ascii field.acronym)⟩,
   ⟨"FID", .int2, fun field => .value (.int field.fid.toInt64)⟩,
   ⟨"RIPPLETO", .int2, fun field => .value (.int field.rippleTo.toInt64)⟩,
   ⟨"TYPE", .int1, fun field => .value (.int field.fieldType.code.toInt64)⟩,
   ⟨"LENGTH", .uint2, fun field => .value (.uint field.length.toUInt64)⟩,
   ⟨"RWFTYPE", .uint1, fun field => .value (.uint field.wireType.code.toUInt64)⟩,
   ⟨"RWFLEN", .uint2, fun field => .value (.uint field.wireLength.toUInt64)⟩]

/-- The columns that tell more. -/
def normalColumns : List (Column FieldDefinition) :=
  [⟨"ENUMLENGTH", .uint1, fun field => .value (.uint field.enumLength.toUInt64)⟩,
   ⟨"LONGNAME", .ascii, fun field => .value (.ascii field.longName)⟩]

def columns (verbosity : Verbosity) : List (Column FieldDefinition) :=
  if verbosity.includes .normal then minimalColumns ++ normalColumns else minimalColumns

/-- A definition as far as the elements of a row have told it. -/
structure Received where
  acronym : Option String := none
  fid : Option Int16 := none
  wireType : Option UInt8 := none
  rippleTo : Int16 := 0
  fieldType : FieldType := .none
  length : UInt16 := 0
  wireLength : UInt16 := 0
  enumLength : UInt8 := 0
  longName : String := ""

namespace Received

/-- Take in an element of a row. Elements above the verbosity and unknown ones do not count. -/
def add (verbosity : Verbosity) (received : Received) (element : ElementList.Entry) :
    Except DictionaryError Received := do
  match Element.name element, verbosity.includes .normal with
  | "NAME", _ => return { received with acronym := some (← Element.text element) }
  | "FID", _ => return { received with fid := some (.ofInt (← Element.signed 16 element)) }
  | "RIPPLETO", _ => return { received with rippleTo := .ofInt (← Element.signed 16 element) }
  | "TYPE", _ =>
    let code := Int8.ofInt (← Element.signed 8 element)
    return { received with fieldType := ← Element.demand element (FieldType.ofCode? code) }
  | "LENGTH", _ => return { received with length := .ofNat (← Element.unsigned 16 element) }
  | "RWFTYPE", _ =>
    return { received with wireType := some (.ofNat (← Element.unsigned 8 element)) }
  | "RWFLEN", _ => return { received with wireLength := .ofNat (← Element.unsigned 16 element) }
  | "ENUMLENGTH", true =>
    return { received with enumLength := .ofNat (← Element.unsigned 8 element) }
  | "LONGNAME", true => return { received with longName := ← Element.text element }
  | _, _ => return received

def demand {α : Type} (name : String) : Option α → Except DictionaryError α
  | some value => .ok value
  | none => .error (.missingElement name)

/-- The definition. A set type on the wire stands for the type as which it is read. -/
def definition (received : Received) : Except DictionaryError FieldDefinition := do
  let acronym ← demand "NAME" received.acronym
  let fid ← demand "FID" received.fid
  let code ← demand "RWFTYPE" received.wireType
  return {
    fid, acronym
    wireType := ((DataType.ofCode? code).map (·.base)).getD .unknown
    longName := received.longName
    rippleTo := received.rippleTo
    fieldType := received.fieldType
    length := received.length
    enumLength := received.enumLength
    wireLength := received.wireLength }

end Received

def decodeRow (context : Context) (verbosity : Verbosity) (row : Bytes) :
    Except DictionaryError FieldDefinition := do
  let received ← (← Element.readable context row).foldlM (Received.add verbosity) {}
  received.definition

end FieldDefinition

namespace Dictionary

def fieldSummary (dictionary : Dictionary) : Write Unit :=
  Summary.write
    [Summary.kindElement .fields, Summary.idElement dictionary.id,
     (Summary.versionName, .ascii dictionary.fieldTags.version)]

def fieldRow (columns : List (Column FieldDefinition)) (field : FieldDefinition) : Part.Row :=
  ⟨field.fid.toInt32, Series.openEntry, Column.writeRow columns field⟩

/-- The definitions to send. The part with the lowest field identifier comes first. -/
def fieldEdition (dictionary : Dictionary) (verbosity : Verbosity) : Edition FieldDefinition :=
  let columns := FieldDefinition.columns verbosity
  { columns
    hasRows := verbosity ≠ .info
    first := (dictionary.minFid?.map (·.toInt32)).getD 0
    count? := if dictionary.size = 0 then none else some dictionary.size
    summary := dictionary.fieldSummary
    rows := dictionary.toList.map (fieldRow columns) }

def encodeFields (dictionary : Dictionary) (verbosity : Verbosity) (cursor : Int32)
    (capacity : Nat) : Except DictionaryError Part :=
  (dictionary.fieldEdition verbosity).encodePart cursor capacity

section
variable {σ : Type} [Store σ]

def applyFieldSummary (element : ElementList.Entry) : Store.Update σ Unit := do
  match Element.name element with
  | "Type" => Summary.lift (Summary.checkKind .fields element)
  | "DictionaryId" => Store.checkId (← Summary.lift (Summary.id element)) true
  | "Version" =>
    let version ← Summary.lift (Element.text element)
    Store.setFieldTags fun tags => { tags with version := setOnce tags.version version }
  | _ => pure ()

/-- Add the definitions of rows, except of those that could not be read, and count them. -/
def addFieldRows (context : Context) (verbosity : Verbosity) (count : Nat) :
    List EntryValue → Store.Update σ Nat
  | [] => return count
  | .container _ row :: rest => do
    Store.addField (← Summary.lift (FieldDefinition.decodeRow context verbosity row))
    addFieldRows context verbosity (count + 1) rest
  | _ :: rest => addFieldRows context verbosity count rest

def decodeFields (verbosity : Verbosity) (part : Bytes) : Store.Update σ Nat := do
  let series ← Summary.lift ((Series.decode part).mapError .decode)
  Summary.checkRows series.header
  Summary.applyEach applyFieldSummary series.header
  let context ← Summary.rowContext series.header
  addFieldRows context verbosity 0 series.entries

end

end Dictionary

end MarketWire
