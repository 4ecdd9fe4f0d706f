import Std.Data.ExtTreeSet
import MarketWire.Dictionary.Field
import MarketWire.Dictionary.EnumTable
import MarketWire.Context

/-! Dictionaries: definitions of fields and the tables of their enumerated values.

Definitions and tables may come in any order. A table names the fields that refer to it, whether
they are defined yet or not; each field refers to one table at most. Updates that fail leave the
changes that they made before; a transaction takes them back.
-/

set_option autoImplicit false

namespace MarketWire

/-- The tags of files that define fields. -/
structure FieldTags where
  version : String := ""
  filename : String := ""
  description : String := ""
  build : String := ""
  date : String := ""
  deriving DecidableEq, Repr

/-- The tags of files that define enumerated values. -/
structure EnumTags where
  filename : String := ""
  description : String := ""
  date : String := ""
  rtVersion : String := ""
  dtVersion : String := ""
  deriving DecidableEq, Repr

/-- A tag keeps its first text that is not empty. -/
def setOnce (tag text : String) : String := if tag.isEmpty then text else tag

/-- The table that a field refers to, and the acronym that the table gives for the field. -/
structure EnumLink where
  acronym : String
  table : Nat
  deriving DecidableEq, Repr

/-- The definitions by field identifier, the links of fields to tables, and the tables in the order
in which they were added. The names, if they are kept, lead from acronyms to fields; an id of zero
is not known yet. -/
structure Dictionary where
  definitions : Std.ExtTreeMap Int16 FieldDefinition := ∅
  links : Std.ExtTreeMap Int16 EnumLink := ∅
  tables : Array EnumTable := #[]
  names : Option (Std.ExtTreeMap String Int16) := some ∅
  id : Int32 := 0
  fieldTags : FieldTags := {}
  enumTags : EnumTags := {}

namespace Dictionary

def empty : Dictionary := {}

def size (dictionary : Dictionary) : Nat := dictionary.definitions.size

/-- Something is known of some field. -/
def isInitialized (dictionary : Dictionary) : Bool :=
  !dictionary.definitions.isEmpty || !dictionary.links.isEmpty

def minFid? (dictionary : Dictionary) : Option Int16 := dictionary.definitions.minKey?

def maxFid? (dictionary : Dictionary) : Option Int16 := dictionary.definitions.maxKey?

def get? (dictionary : Dictionary) (fid : Int16) : Option FieldDefinition :=
  dictionary.definitions[fid]?

/-- The definitions in ascending order of field identifiers. -/
def toList (dictionary : Dictionary) : List FieldDefinition :=
  dictionary.definitions.toList.map Prod.snd

def fieldTypes (dictionary : Dictionary) : FieldTypes := fun fid =>
  (dictionary.get? fid).map (·.wireType)

def tableOf? (dictionary : Dictionary) (fid : Int16) : Option EnumTable :=
  dictionary.links[fid]?.bind fun link => dictionary.tables[link.table]?

/-- The label of an enumerated value of a field, which need not be defined. -/
def enumLabel? (dictionary : Dictionary) (fid : Int16) (value : UInt16) : Option EnumLabel :=
  (dictionary.tableOf? fid).bind (·.get? value)

/-- The fields by acronym; of several fields with the same one, the one with the lowest identifier. -/
def buildNames (dictionary : Dictionary) : Std.ExtTreeMap String Int16 :=
  dictionary.toList.foldl (fun names field => names.insertIfNew field.acronym field.fid) ∅

/-- Keep names, collected anew, or keep none. -/
def withNames (dictionary : Dictionary) (keep : Bool) : Dictionary :=
  { dictionary with names := if keep then some dictionary.buildNames else none }

/-- Look up a definition by acronym: with names, the field that had it first, else the lowest one. -/
def byAcronym? (dictionary : Dictionary) (acronym : String) : Option FieldDefinition :=
  match dictionary.names with
  | some names => names[acronym]?.bind dictionary.get?
  | none => dictionary.toList.find? (·.acronym == acronym)

/-- Forget everything but whether names are kept. -/
def clear (dictionary : Dictionary) : Dictionary := empty.withNames dictionary.names.isSome

/-- The acronym of a field that is defined or that a table refers to. -/
def acronymOf? (dictionary : Dictionary) (fid : Int16) : Option String :=
  ((dictionary.get? fid).map (·.acronym)).or (dictionary.links[fid]?.map (·.acronym))

abbrev Update := EStateM DictionaryError Dictionary

/-- Insert a definition of a field that has none. -/
def insertField (dictionary : Dictionary) (field : FieldDefinition) : Dictionary :=
  { dictionary with
    definitions := dictionary.definitions.insert field.fid field
    names := dictionary.names.map (·.insertIfNew field.acronym field.fid) }

/-- Define a field. A table that refers to the field may have given an acronym, which must be the
same. -/
def addField (field : FieldDefinition) : Update Unit := do
  let dictionary ← get
  if field.fid = 0 then throw .reservedFid
  if field.wireType = .unknown then throw (.invalidWireType field.fid)
  if (dictionary.get? field.fid).isSome then throw (.duplicateFid field.fid)
  match dictionary.links[field.fid]? with
  | some link =>
    if link.acronym ≠ "" ∧ link.acronym ≠ field.acronym then
      throw (.acronymMismatch field.fid field.acronym link.acronym)
  | none => pure ()
  modify (·.insertField field)

/-- Why a table may not refer to some fields. The reference to a field is refused when it is
repeated, when the acronym is another one than that of the field, or when the field has a table. -/
def referenceError? (dictionary : Dictionary) (before : Std.ExtTreeSet Int16) :
    List (Int16 × String) → Option DictionaryError
  | [] => none
  | (fid, acronym) :: rest =>
    if fid ∈ before then some (.duplicateEnumTableReference fid)
    else match dictionary.acronymOf? fid with
      | some known =>
        if acronym ≠ "" ∧ known ≠ acronym then some (.acronymMismatch fid known acronym)
        else if fid ∈ dictionary.links then some (.duplicateEnumTableReference fid)
        else dictionary.referenceError? (before.insert fid) rest
      | none => dictionary.referenceError? (before.insert fid) rest

/-- Append a table and link fields to it. -/
def insertTable (dictionary : Dictionary) (references : List (Int16 × String)) (table : EnumTable) :
    Dictionary :=
  let index := dictionary.tables.size
  { dictionary with
    links := references.foldl (fun links (fid, acronym) => links.insert fid ⟨acronym, index⟩)
      dictionary.links
    tables := dictionary.tables.push table }

/-- Add a table for fields with an acronym each; an empty acronym stands for any. -/
def addTable (references : List (Int16 × String)) (values : List (UInt16 × EnumLabel)) :
    Update Unit := do
  match EnumTable.ofList (references.map Prod.fst) values with
  | .error error => throw error
  | .ok table =>
    match (← get).referenceError? ∅ references with
    | some error => throw error
    | none => modify (·.insertTable references table)

/-- Demand that an id is unknown or that of the dictionary, and adopt it if told to. -/
def checkId (id : Int32) (adopt : Bool) : Update Unit := do
  let own := (← get).id
  if id ≠ 0 ∧ own ≠ 0 ∧ id ≠ own then throw (.dictionaryIdMismatch id own)
  if adopt ∧ id ≠ 0 then modify ({ · with id })

def setFieldTags (change : FieldTags → FieldTags) : Update Unit :=
  modify fun dictionary => { dictionary with fieldTags := change dictionary.fieldTags }

def setEnumTags (change : EnumTags → EnumTags) : Update Unit :=
  modify fun dictionary => { dictionary with enumTags := change dictionary.enumTags }

def setRipple (dictionary : Dictionary) (fid target : Int16) : Dictionary :=
  { dictionary with
    definitions := dictionary.definitions.modify fid fun field => { field with rippleTo := target } }

/-- Let fields ripple to the fields with some acronyms, as far as there are any. A field keeps its
acronym, so the names may be collected once. -/
def resolveRipples (ripples : List (Int16 × String)) (dictionary : Dictionary) : Dictionary :=
  let names := dictionary.names.getD dictionary.buildNames
  ripples.foldl (fun dictionary (fid, acronym) =>
    match names[acronym]? with
    | some target => dictionary.setRipple fid target
    | none => dictionary) dictionary

end Dictionary

end MarketWire
