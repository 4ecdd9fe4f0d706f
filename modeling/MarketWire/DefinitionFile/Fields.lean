import MarketWire.DefinitionFile.Tag

/-! Files that define fields.

A line gives the acronym, the long name between quotes, the identifier, the acronym of the field to
ripple to or `NULL`, the type and length in older feeds, perhaps the length of an enumerated value
between parentheses, and the data type and length on the wire. A field ripples to a field of the
same file or of the dictionary, wherever it stands.
-/

set_option autoImplicit false

namespace MarketWire

namespace Scan

def numberBelow (limit : Nat) (reason : String) : Scan Nat := do
  let word ← word?
  demand reason (word.bind fun word => Integer.below? limit word.toList)

def fid? (word : String) : Option Int16 := (Integer.ofBits? 16 word.toList).map Int16.ofInt

/-- The length of an enumerated value between parentheses, or zero. -/
def enumLength : Scan UInt8 := do
  if ← take openParenthesis then
    let length ← numberBelow 0x100 "Cannot find EnumLen"
    if ← take closeParenthesis then return .ofNat length
    throw "No ')'"
  else return 0

def field : Scan (FieldDefinition × Option String) := do
  let acronym ← word "Cannot find Acronym"
  let longName ← demand "Cannot find DDE Acronym" (← delimited? quote)
  let fidWord ← word "Cannot find Fid Number"
  let fid ← demand ("Illegal fid number " ++ fidWord) (fid? fidWord)
  let ripple ← word "Cannot find Ripples To"
  let typeWord := (← word?).getD ""
  let fieldType ← demand ("Unknown Field Type " ++ quoted typeWord) (FieldType.ofKeyword? typeWord)
  let length ← numberBelow 0x10000 "Cannot find Length"
  let enumLength ← enumLength
  let wireWord := (← word?).getD ""
  let wireType ← demand ("Invalid Rwf Type " ++ quoted wireWord) (DataType.ofKeyword? wireWord)
  let wireLength ← numberBelow 0x10000 "Cannot find Rwf Length"
  let field : FieldDefinition := {
    fid, acronym, fieldType, enumLength, wireType
    longName := String.ofList (Utf8.decodeLossy longName)
    length := .ofNat length
    wireLength := .ofNat wireLength }
  return (field, if ripple = "NULL" then none else some ripple)

end Scan

namespace Dictionary

variable {σ : Type} [Store σ]

def applyFieldTag (line : Nat) (name value : String) : Store.Update σ Unit := do
  applyCommonTag line .fields true name value
  match name with
  | "Version" => Store.setFieldTags fun tags => { tags with version := setOnce tags.version value }
  | "Filename" => Store.setFieldTags fun tags => { tags with filename := setOnce tags.filename value }
  | "Desc" => Store.setFieldTags fun tags => { tags with description := setOnce tags.description value }
  | "Build" => Store.setFieldTags fun tags => { tags with build := setOnce tags.build value }
  | "Date" => Store.setFieldTags fun tags => { tags with date := setOnce tags.date value }
  | _ => pure ()

/-- Add the fields of some lines, and answer each with the acronym of the field to ripple to. -/
def addFieldLines (ripples : List (Int16 × String)) :
    List (Line × Nat) → Store.Update σ (List (Int16 × String))
  | [] => return ripples.reverse
  | (.nothing, _) :: rest => addFieldLines ripples rest
  | (.tag name value, line) :: rest => do
    applyFieldTag line name value
    addFieldLines ripples rest
  | (.words content, line) :: rest => do
    let (field, ripple) ← scanLine line Scan.field content
    onLine line (Store.addField field)
    match ripple with
    | some acronym => addFieldLines ((field.fid, acronym) :: ripples) rest
    | none => addFieldLines ripples rest

/-- Add all definitions of a text, or none. -/
def parseFields (text : Bytes) : Store.Update σ Unit := transaction do
  let ripples ← addFieldLines [] (Line.ofText text)
  modify (Store.resolveRipples ripples)

end Dictionary

end MarketWire
