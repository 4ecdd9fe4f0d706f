import MarketWire.Publication.Summary
import MarketWire.Container.Vector

/-! Dictionaries of global set definitions in parts: a vector with a row for each definition, at the
index of its id.
-/

set_option autoImplicit false

namespace MarketWire

/-- How the keys of set definitions travel in rows. -/
class PublishedKey (κ : Type) extends SetKey κ where
  kind : DictionaryKind
  /-- The name of the column with the keys. -/
  column : String
  cell : List κ → Cell
  ofItem? : Primitive → Option κ

instance : PublishedKey Int16 where
  kind := .fieldSets
  column := "FIDS"
  cell fids := .items ⟨.int, 2⟩ (fids.map fun fid => .int fid.toInt64)
  ofItem? item := (Element.signed? 16 item).map .ofInt

instance : PublishedKey String where
  kind := .elementSets
  column := "NAMES"
  cell names := .items ⟨.buffer, 0⟩ (names.map fun name => .bytes .buffer (Bytes.ofString name))
  ofItem? item := (Element.content? item).map Element.textOf

namespace SetDefinition

variable {κ : Type} [key : PublishedKey κ]

variable (κ) in
def columns : List (Column (SetDefinition κ)) :=
  [⟨"NUMENTRIES", .int, fun definition => .value (.int (.ofNat definition.size))⟩,
   ⟨key.column, .array, fun definition => key.cell (definition.entries.toList.map (·.key))⟩,
   ⟨"TYPES", .array, fun definition =>
      .items ⟨.uint, 1⟩ (definition.entries.toList.map fun entry => .uint entry.type.code.toUInt64)⟩]

/-- A set definition as far as the elements of a row have told it. -/
structure Received (κ : Type) where
  count : Option Nat := none
  keys : Option (List κ) := none
  types : Option (List DataType) := none

namespace Received

/-- The type that a code stands for; set definitions must be able to declare it. -/
def type (code : UInt8) : Except DictionaryError DataType :=
  match (DataType.ofCode? code).filter (·.setLayout?.isSome) with
  | some type => .ok type
  | none => .error (.decode (.unsupportedType code))

/-- The types that the items of an array stand for. -/
def typesOf (element : ElementList.Entry) : Except DictionaryError (List DataType) := do
  (← Element.items element).mapM fun item => do
    type (.ofNat (← Element.demand element (Element.unsigned? 8 item)))

/-- Take in an element of a row. Unknown ones do not count. -/
def add (received : Received κ) (element : ElementList.Entry) :
    Except DictionaryError (Received κ) := do
  let name := Element.name element
  if name = "NUMENTRIES" then
    return { received with count := some (← Element.unsigned 64 element) }
  else if name = "TYPES" then return { received with types := some (← typesOf element) }
  else if name = key.column then
    return { received with keys := some (← Element.itemsAs key.ofItem? element) }
  else return received

/-- The definition, which must have as many keys and types as declared. -/
def definition (id : UInt16) (received : Received κ) :
    Except DictionaryError (SetDefinition κ) := do
  let some count := received.count | throw (.missingElement "NUMENTRIES")
  let some keys := received.keys | throw (.missingElement key.column)
  let some types := received.types | throw (.missingElement "TYPES")
  if keys.length ≠ count then throw (.setDefinitionCount id key.column count keys.length)
  if types.length ≠ count then throw (.setDefinitionCount id "TYPES" count types.length)
  return ⟨id, (keys.zipWith SetEntry.mk types).toArray⟩

end Received

def decodeRow (context : Context) (id : UInt16) (row : Bytes) :
    Except DictionaryError (SetDefinition κ) := do
  let received ← (← Element.readable context row).foldlM Received.add {}
  received.definition id

end SetDefinition

namespace GlobalSets

variable {κ : Type} [key : PublishedKey κ]

/-- An empty version is left out. -/
def summary (sets : GlobalSets κ) : Write Unit :=
  let version :=
    if sets.version.isEmpty then [] else [(Summary.versionName, .ascii sets.version)]
  Summary.write ([Summary.kindElement key.kind] ++ version ++ [Summary.idElement sets.dictionaryId])

def row (definition : SetDefinition κ) : Part.Row :=
  ⟨.ofNat definition.id.toNat,
   fun plan => Vector.openEntry plan definition.id.toUInt32 .set none,
   Column.writeRow (SetDefinition.columns κ) definition⟩

/-- The definitions to send, with their ids as cursors. -/
def edition (sets : GlobalSets κ) (verbosity : Verbosity) : Edition (SetDefinition κ) where
  columns := SetDefinition.columns κ
  hasRows := verbosity ≠ .info
  first := 0
  count? := some sets.size
  summary := sets.summary
  rows := sets.toList.map row

def encodePart (sets : GlobalSets κ) (verbosity : Verbosity) (cursor : Int32) (capacity : Nat) :
    Except DictionaryError Part :=
  (sets.edition verbosity).encodePart cursor capacity

abbrev Update (κ : Type) := EStateM DictionaryError (GlobalSets κ)

/-- Apply an element of the summary of a part. An id is adopted when none is known. -/
def applySummary (element : ElementList.Entry) : Update κ Unit := do
  match Element.name element with
  | "Type" => Summary.lift (Summary.checkKind key.kind element)
  | "Version" =>
    let version ← Summary.lift (Element.text element)
    modify fun sets => { sets with version := setOnce sets.version version }
  | "DictionaryId" =>
    let found ← Summary.lift (Summary.id element)
    let own := (← get).dictionaryId
    if own = 0 then modify ({ · with dictionaryId := found })
    else if found ≠ 0 ∧ found ≠ own then throw (.dictionaryIdMismatch found own)
  | _ => pure ()

/-- Add the definition in a row at an index, which must be an id that is not taken. -/
def addRow (context : Context) (index : Nat) (row : Bytes) : Update κ Unit := do
  if 0xFFFF < index then
    throw (.decode (.invalidData ("set id " ++ toString index ++ " out of range")))
  let id := UInt16.ofNat index
  if ((← get).get? id).isSome then throw (.decode (.duplicateSetDefinition id))
  let definition ← Summary.lift (SetDefinition.decodeRow context id row)
  modify (·.add definition)

/-- Add the definitions of entries that carry a row, and count them. -/
def addEntries (context : Context) (count : Nat) : List Vector.Entry → Update κ Nat
  | [] => return count
  | entry :: rest => do
    match entry.value, entry.action.any (·.hasPayload) with
    | .container _ row, true =>
      addRow context entry.index row
      addEntries context (count + 1) rest
    | _, _ => addEntries context count rest

/-- Take in a part, and answer how many definitions it has. -/
def decodePart (part : Bytes) : Update κ Nat := do
  let vector ← Summary.lift ((Vector.decode part).mapError .decode)
  Summary.checkRows vector.header
  Summary.applyEach applySummary vector.header
  let context ← Summary.rowContext vector.header
  addEntries context 0 vector.entries

end GlobalSets

end MarketWire
