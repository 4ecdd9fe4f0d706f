import MarketWire.Publication.Summary

/-! Dictionaries of enumerated values in parts: a series with a row of arrays for each table. -/

set_option autoImplicit false

namespace MarketWire

namespace EnumTable

/-- A column with an array of items of a type, one for each value. -/
def labelColumn (name : String) (type : DataType) (item : UInt16 × EnumLabel → Primitive) :
    Column EnumTable :=
  ⟨name, .array, fun table => .items ⟨type, 0⟩ (table.toList.map item)⟩

def minimalColumns : List (Column EnumTable) :=
  [⟨"FIDS", .array, fun table => .items ⟨.int, 2⟩ (table.fids.map fun fid => .int fid.toInt64)⟩,
   labelColumn "VALUE" .enum fun (value, _) => .enum value,
   labelColumn "DISPLAY" .ascii fun (_, label) => .bytes .ascii label.display]

/-- Only the highest verbosity tells meanings. -/
def columns (verbosity : Verbosity) : List (Column EnumTable) :=
  if verbosity.includes .verbose then
    minimalColumns ++ [labelColumn "MEANING" .ascii fun (_, label) => .ascii label.meaning]
  else minimalColumns

/-- A table as far as the elements of a row have told it. -/
structure Received where
  fids : List Int16 := []
  values : Option (List UInt16) := none
  displays : Option (List Bytes) := none
  meanings : List Bytes := []

namespace Received

/-- Take in an element of a row. Some elements have two names; elements above the verbosity and
unknown ones do not count. -/
def add (verbosity : Verbosity) (received : Received) (element : ElementList.Entry) :
    Except DictionaryError Received := do
  let fid (item : Primitive) : Option Int16 := (Element.signed? 16 item).map .ofInt
  let number (item : Primitive) : Option UInt16 := (Element.unsigned? 16 item).map .ofNat
  match Element.name element, verbosity.includes .verbose with
  | "FIDS", _ | "FID", _ => return { received with fids := ← Element.itemsAs fid element }
  | "VALUE", _ | "VALUES", _ =>
    return { received with values := some (← Element.itemsAs number element) }
  | "DISPLAY", _ | "DISPLAYS", _ =>
    return { received with displays := some (← Element.itemsAs Element.content? element) }
  | "MEANING", true =>
    return { received with meanings := ← Element.itemsAs Element.content? element }
  | _, _ => return received

/-- Pair values with their labels; meanings that are missing are empty. -/
def labels : List UInt16 → List Bytes → List Bytes → List (UInt16 × EnumLabel)
  | value :: values, display :: displays, meanings =>
    (value, ⟨display, Element.textOf (meanings.headD [])⟩) :: labels values displays meanings.tail
  | _, _, _ => []

/-- The values with their labels. -/
def entries (received : Received) : Except DictionaryError (List (UInt16 × EnumLabel)) := do
  let some values := received.values | throw (.missingElement "VALUE")
  let some displays := received.displays | throw (.missingElement "DISPLAY")
  if values.length ≠ displays.length then
    throw (.displayValueMismatch values.length displays.length)
  return labels values displays received.meanings

end Received

def decodeRow (context : Context) (verbosity : Verbosity) (row : Bytes) :
    Except DictionaryError (List Int16 × List (UInt16 × EnumLabel)) := do
  let received ← (← Element.readable context row).foldlM (Received.add verbosity) {}
  return (received.fids, ← received.entries)

end EnumTable

namespace Dictionary

def enumSummary (dictionary : Dictionary) : Write Unit :=
  let tags := dictionary.enumTags
  Summary.write
    [Summary.kindElement .enums, Summary.idElement dictionary.id,
     (Summary.versionName, .ascii tags.dtVersion), ("RT_Version", .ascii tags.rtVersion),
     ("DT_Version", .ascii tags.dtVersion)]

def enumRow (columns : List (Column EnumTable)) (table : EnumTable) (position : Nat) : Part.Row :=
  ⟨.ofNat position, Series.openEntry, Column.writeRow columns table⟩

/-- The tables to send, with their positions as cursors. -/
def enumEdition (dictionary : Dictionary) (verbosity : Verbosity) : Edition EnumTable :=
  let columns := EnumTable.columns verbosity
  { columns
    hasRows := verbosity ≠ .info
    first := 0
    count? := some dictionary.tables.size
    summary := dictionary.enumSummary
    rows := dictionary.tables.toList.mapIdx fun position table => enumRow columns table position }

def encodeEnums (dictionary : Dictionary) (verbosity : Verbosity) (cursor : Int32)
    (capacity : Nat) : Except DictionaryError Part :=
  (dictionary.enumEdition verbosity).encodePart cursor capacity

section
variable {σ : Type} [Store σ]

def applyEnumSummary (element : ElementList.Entry) : Store.Update σ Unit := do
  match Element.name element with
  | "Type" => Summary.lift (Summary.checkKind .enums element)
  | "DictionaryId" => Store.checkId (← Summary.lift (Summary.id element)) true
  | "RT_Version" =>
    let version ← Summary.lift (Element.text element)
    Store.setEnumTags fun tags => { tags with rtVersion := setOnce tags.rtVersion version }
  | "DT_Version" =>
    let version ← Summary.lift (Element.text element)
    Store.setEnumTags fun tags => { tags with dtVersion := setOnce tags.dtVersion version }
  | _ => pure ()

/-- Add the tables of rows, except of those that could not be read, and count them. -/
def addEnumRows (context : Context) (verbosity : Verbosity) (count : Nat) :
    List EntryValue → Store.Update σ Nat
  | [] => return count
  | .container _ row :: rest => do
    let (fids, entries) ← Summary.lift (EnumTable.decodeRow context verbosity row)
    Store.addTable (fids.map fun fid => (fid, "")) entries
    addEnumRows context verbosity (count + 1) rest
  | _ :: rest => addEnumRows context verbosity count rest

def decodeEnums (verbosity : Verbosity) (part : Bytes) : Store.Update σ Nat := do
  let series ← Summary.lift ((Series.decode part).mapError .decode)
  Summary.checkRows series.header
  Summary.applyEach applyEnumSummary series.header
  let context ← Summary.rowContext series.header
  addEnumRows context verbosity 0 series.entries

end

end Dictionary

end MarketWire
