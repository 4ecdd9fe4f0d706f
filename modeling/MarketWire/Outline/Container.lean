import MarketWire.Outline
import MarketWire.Container.FieldList
import MarketWire.Container.ElementList
import MarketWire.Container.Series
import MarketWire.Container.Vector
import MarketWire.Container.FilterList
import MarketWire.Container.ItemArray

/-! Outlines of containers, with the containers inside them if wanted.

The context is handed down to inner containers. Set definitions in the header of a table, when they
can be read, take the place of the local ones for its rows.
-/

set_option autoImplicit false

namespace MarketWire.Outline

/-- How much of a container is shown: containers inside it or not, and how many entries. -/
structure Extent where
  nested : Bool
  limit : Nat

/-- The outline of a container of a type in a context. -/
abbrev Dissector := DataType → Context → Bytes → Outline

def rowContext (context : Context) (header : Table.Header) : Context :=
  let fields := header.fieldSets.bind Except.toOption
  let elements := header.elementSets.bind Except.toOption
  { context with
    localFieldSets := fields.or context.localFieldSets
    localElementSets := elements.or context.localElementSets }

/-- The types of containers that are shown inside others. -/
def isDissected (type : DataType) : Bool :=
  type = .fieldList || type = .elementList || type = .series || type = .vector
    || type = .filterList

/-- The head of a container, its first entries and the number of all. -/
def entries {α : Type} (limit : Nat) (head : List (String × Outline)) (render : α → Outline)
    (all : List α) : Outline :=
  .record [("head", .record head), ("entries", .list ((all.take limit).map render)),
    ("total", outline all.length)]

variable (inner : Option Dissector) (context : Context)

/-- What an array inside a container adds to its outline. -/
def innerArray (value : Primitive) : List (String × Outline) :=
  match inner, value with
  | some inner, .bytes .array content => [("decoded", inner .array context content)]
  | _, _ => []

def entryValue (value : EntryValue) : Outline :=
  let more := match inner, value with
    | _, .primitive value => innerArray inner context value
    | some inner, .container type content =>
      if isDissected type then [("decoded", inner type context content)] else []
    | _, _ => []
  .record ((outline value).members ++ more)

def fieldEntry (entry : FieldList.Entry) : Outline :=
  .record [("fid", outline entry.name), ("type", outline entry.type),
    ("value", entryValue inner context entry.value), ("encoded", .bytes entry.encoded)]

def elementEntry (entry : ElementList.Entry) : Outline :=
  .record [("name", .bytes entry.name), ("name_str", outline (ElementList.nameText entry)),
    ("type", outline entry.type), ("value", entryValue inner context entry.value),
    ("encoded", .bytes entry.encoded)]

def vectorEntry (entry : Vector.Entry) : Outline :=
  .record [("index", outline entry.index), ("action", outline (entry.action.map (·.code))),
    ("has_payload", outline (entry.action.map (·.hasPayload))),
    ("perm", outline entry.permission), ("value", entryValue inner context entry.value)]

def filterEntry (entry : FilterList.Entry) : Outline :=
  .record [("id", outline entry.id), ("action", outline (entry.action.map (·.code))),
    ("type", outline entry.type), ("perm", outline entry.permission),
    ("value", entryValue inner context entry.value)]

def arrayItem (item : Except DecodeError Primitive) : Outline :=
  match item with
  | .ok value => .record ((outline value).members ++ innerArray inner context value)
  | .error error => outline error

/-- What the heads of series and vectors have in common. -/
def tableHead (header : Table.Header) : List (String × Outline) :=
  [("type", outline header.rowType), ("summary", outline header.summary),
    ("hint", outline header.countHint), ("count", outline header.count),
    ("field_sets", outline header.fieldSets), ("element_sets", outline header.elementSets)]

/-- A container of one of the types that are shown; other bytes have no outline. -/
def container (limit : Nat) (type : DataType) (encoded : Bytes) : Outline :=
  match type with
  | .fieldList => match FieldList.decode context encoded with
    | .error error => outline error
    | .ok content =>
      let info := content.info.map fun info =>
        Outline.list [outline info.dictionaryId, outline info.listNumber]
      entries limit [("info", outline info), ("set_id", outline content.setId),
        ("count", outline content.count)] (fieldEntry inner context) content.entries
  | .elementList => match ElementList.decode context encoded with
    | .error error => outline error
    | .ok content =>
      entries limit [("list_number", outline content.info), ("set_id", outline content.setId),
        ("count", outline content.count)] (elementEntry inner context) content.entries
  | .series => match Series.decode encoded with
    | .error error => outline error
    | .ok ⟨header, rows⟩ =>
      entries limit (("set_defs", outline header.setDefinitions) :: tableHead header)
        (entryValue inner (rowContext context header)) rows
  | .vector => match Vector.decode encoded with
    | .error error => outline error
    | .ok ⟨header, rows⟩ =>
      entries limit (("sorting", .flag header.sorting) :: tableHead header)
        (vectorEntry inner (rowContext context header)) rows
  | .filterList => match FilterList.decode encoded with
    | .error error => outline error
    | .ok content =>
      entries limit [("type", outline content.type), ("hint", outline content.countHint),
        ("count", outline content.count)] (filterEntry inner context) content.entries
  | .array => match ItemArray.decode encoded with
    | .error error => outline error
    | .ok array =>
      entries limit [("blank", .flag array.isBlank), ("type", outline array.type),
        ("item_length", outline array.itemLength), ("count", outline array.count)]
        (arrayItem inner context) array.items
  | _ => .nothing

/-- Show containers inside containers down to a depth. -/
def dissectTo (limit : Nat) : Nat → Dissector
  | 0, _, _, _ => .nothing
  | depth + 1, type, context, content =>
    container (some (dissectTo limit depth)) context limit type content

/-- Show a container. An inner container is shorter than the one around it, so a depth of the number
of bytes is enough. -/
def dissect (extent : Extent) : Dissector := fun type context content =>
  if extent.nested then dissectTo extent.limit (content.length + 1) type context content
  else container none context extent.limit type content

end MarketWire.Outline
