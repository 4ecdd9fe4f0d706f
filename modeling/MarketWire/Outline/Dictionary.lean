import MarketWire.Outline
import MarketWire.Publication
import MarketWire.Dictionary.Dump
import MarketWire.Container.FilterList

/-! Outlines of dictionaries. -/

set_option autoImplicit false

namespace MarketWire.Outline

instance : Outlined DictionaryKind := ⟨fun kind => outline kind.code⟩
instance : Outlined Verbosity := ⟨fun verbosity => outline verbosity.code⟩

def enumEntry (value : UInt16) (label : EnumLabel) : Outline :=
  .record [("value", outline value), ("display", .bytes label.display),
    ("text", outline label.text?), ("meaning", .text label.meaning)]

instance : Outlined EnumTable where
  outline table :=
    .record [("max", outline table.maxValue), ("len", outline table.size),
      ("empty", .flag (table.size == 0)), ("fids", outline table.fids),
      ("values", .list (table.toList.map fun (value, label) => enumEntry value label))]

def fieldDefinition (dictionary : MarketWire.Dictionary) (field : FieldDefinition) : Outline :=
  let table := (dictionary.tableOf? field.fid).map fun table =>
    Outline.list [outline table.maxValue, outline table.fids]
  .record [("fid", outline field.fid), ("acronym", .text field.acronym),
    ("long_name", .text field.longName), ("ripple_to", outline field.rippleTo),
    ("field_type", outline field.fieldType.code), ("length", outline field.length),
    ("enum_length", outline field.enumLength), ("rwf_type", outline field.wireType),
    ("rwf_length", outline field.wireLength), ("placeholder", .flag (field.wireType = .unknown)),
    ("enum", outline table)]

def fieldDefinitions (dictionary : MarketWire.Dictionary) (fields : List FieldDefinition) :
    Outline :=
  .list (fields.map (fieldDefinition dictionary))

def counts (dictionary : MarketWire.Dictionary) : Outline :=
  .list [.flag dictionary.isInitialized, outline dictionary.size, outline dictionary.minFid?,
    outline dictionary.maxFid?, outline dictionary.id, outline dictionary.tables.size]

def tags (dictionary : MarketWire.Dictionary) : Outline :=
  let fields := dictionary.fieldTags
  let enums := dictionary.enumTags
  .record [
    ("field", outline [fields.version, fields.filename, fields.description, fields.build,
      fields.date]),
    ("enum", outline [enums.filename, enums.description, enums.date, enums.rtVersion,
      enums.dtVersion])]

def setCounts {κ : Type} (sets : GlobalSets κ) : Outline :=
  .list [outline sets.size, .text sets.version, outline sets.dictionaryId]

/-- All of a dictionary, with the text that shows its definitions and tables. -/
instance : Outlined MarketWire.Dictionary where
  outline dictionary :=
    .record [("state", counts dictionary), ("tags", tags dictionary), ("dump", .text dictionary.dump)]

/-- All that a code may stand for. -/
def meanings (code : Int) : Outline :=
  let byte? : Option UInt8 := if 0 ≤ code ∧ code < 256 then some (.ofInt code) else none
  let fieldType? := if -128 ≤ code ∧ code < 128 then FieldType.ofCode? (.ofInt code) else none
  let kind? := if 0 ≤ code then DictionaryKind.ofCode? code.toNat else none
  let vectorAction? := (byte?.bind Vector.Action.ofCode?).map fun action =>
    Outline.list [outline action.code, outline action.hasPayload]
  .record [("code", outline code), ("field_type", outline (fieldType?.map (·.keyword))),
    ("verbosity", outline (byte?.bind Verbosity.ofCode?)), ("dictionary", outline kind?),
    ("vector", outline vectorAction?),
    ("filter", outline ((byte?.bind FilterList.Action.ofCode?).map (·.code)))]

/-- What a keyword of definition files stands for as the type of a field. -/
def fieldType? (word : String) : Option Outline :=
  (FieldType.ofKeyword? word).map fun type => .list [outline type.code, outline type.keyword]

/-- A part of a publication, with the cursors of this part and of the next. -/
def publishedPart (part : Part) : Outline :=
  .record [("len", outline part.bytes.length), ("cursor", outline part.cursor),
    ("last", .flag part.isLast), ("next", outline (part.next?.getD part.cursor)),
    ("data", .bytes part.bytes)]

instance : Outlined Part where
  outline part :=
    .record [("complete", .flag part.isLast), ("len", outline part.bytes.length),
      ("empty", .flag part.bytes.isEmpty), ("next", outline part.next?),
      ("data", .bytes part.bytes)]

end MarketWire.Outline
