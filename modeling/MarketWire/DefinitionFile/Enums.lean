import MarketWire.DefinitionFile.Fields

/-! Files that define enumerated values.

A table starts with lines that refer to it, each with an acronym and a field identifier. The lines
of its values follow, each with the value, the display and perhaps the meaning. The display stands
as text between quotes or as hexadecimal digits between number signs.
-/

set_option autoImplicit false

namespace MarketWire

namespace Scan

def hexDigit? (byte : UInt8) : Option UInt8 :=
  if 0x30 ≤ byte && byte ≤ 0x39 then some (byte - 0x30)
  else if 0x41 ≤ byte && byte ≤ 0x46 then some (byte - 0x37)
  else if 0x61 ≤ byte && byte ≤ 0x66 then some (byte - 0x57)
  else none

/-- The bytes that pairs of hexadecimal digits spell. -/
def hexBytes? : Bytes → Option Bytes
  | [] => some []
  | [_] => none
  | high :: low :: rest => do
    let byte := (← hexDigit? high) * 16 + (← hexDigit? low)
    return byte :: (← hexBytes? rest)

def display : Scan Bytes := do
  let first ← peek?
  if first = some quote then
    demand "Missing DISPLAY" ((← delimited? quote).filter fun text => !text.isEmpty)
  else if first = some hash then
    let digits ← demand "Invalid hexadecimal input" (← delimited? hash)
    if digits.length % 2 ≠ 0 then throw "Odd-length hexadecimal input"
    demand "Invalid hexadecimal input" (hexBytes? digits)
  else throw "Missing DISPLAY"

def enumLabel : Scan EnumLabel := do
  let display ← display
  return ⟨display, String.ofList (Utf8.decodeLossy (← rest))⟩

/-- The value that an integer stands for. -/
def enumValue (value : Int) : Scan UInt16 := do
  if value < 0 then throw "Enum value cannot be negative"
  if 0xFFFF < value then throw ("Enum value " ++ toString value ++ " out of range")
  return .ofNat value.toNat

end Scan

/-- A line of a table: a reference of a field to it, or a value with its label. -/
inductive EnumLine where
  | reference (acronym : String) (fid : Option Int16)
  | value (value : UInt16) (label : EnumLabel)
  deriving DecidableEq, Repr

/-- A line that starts with an integer gives a value. -/
def Scan.enumLine : Scan EnumLine := do
  let quoted := (← peek?) = some quote
  let first ← demand "Missing keyword" ((← word?).filter fun _ => !quoted)
  match Integer.ofBits? 64 first.toList with
  | some integer =>
    let value ← enumValue integer
    return .value value (← enumLabel)
  | none => return .reference first ((← word?).bind fid?)

/-- The references and the values of the table that lines have given so far, the last ones first. -/
structure PendingTable where
  references : List (Int16 × String) := []
  values : List (UInt16 × EnumLabel) := []

namespace Dictionary

variable {σ : Type} [Store σ]

def applyEnumTag (line : Nat) (name value : String) : Store.Update σ Unit := do
  applyCommonTag line .enums false name value
  match name with
  | "Filename" => Store.setEnumTags fun tags => { tags with filename := setOnce tags.filename value }
  | "Desc" => Store.setEnumTags fun tags => { tags with description := setOnce tags.description value }
  | "Date" => Store.setEnumTags fun tags => { tags with date := setOnce tags.date value }
  | "RT_Version" => Store.setEnumTags fun tags => { tags with rtVersion := setOnce tags.rtVersion value }
  | "DT_Version" => Store.setEnumTags fun tags => { tags with dtVersion := setOnce tags.dtVersion value }
  | _ => pure ()

def addPending (line : Nat) (pending : PendingTable) : Store.Update σ Unit :=
  onLine line (Store.addTable pending.references.reverse pending.values.reverse)

/-- Start a new table when the one before has values. -/
def closeTable (line : Nat) (pending : PendingTable) : Store.Update σ PendingTable := do
  if pending.values.isEmpty then return pending
  addPending line pending
  return {}

/-- Add the tables of some lines, and answer the table that is not complete. -/
def addEnumLines (pending : PendingTable) : List (Line × Nat) → Store.Update σ PendingTable
  | [] => return pending
  | (.nothing, _) :: rest => addEnumLines pending rest
  | (.tag name value, line) :: rest => do
    applyEnumTag line name value
    addEnumLines pending rest
  | (.words content, line) :: rest => do
    match ← scanLine line Scan.enumLine content with
    | .value value label =>
      addEnumLines { pending with values := (value, label) :: pending.values } rest
    | .reference acronym fid =>
      let pending ← closeTable line pending
      match fid with
      | some fid =>
        addEnumLines { pending with references := (fid, acronym) :: pending.references } rest
      | none => throw (.parse line "Missing FID")

/-- Add all tables of a text, or none. The last table must have values. -/
def parseEnums (text : Bytes) : Store.Update σ Unit := transaction do
  let lines := Line.ofText text
  let pending ← addEnumLines {} lines
  if pending.values.isEmpty then onLine lines.length (throw .noEnumTable)
  addPending lines.length pending

end Dictionary

end MarketWire
