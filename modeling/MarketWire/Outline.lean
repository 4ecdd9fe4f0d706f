import MarketWire.Error
import MarketWire.Real
import MarketWire.Calendar.DateTime
import MarketWire.EntryValue
import MarketWire.SetDefinition.Local

/-! Outlines: trees that show values part by part.

An outline names the parts of a value and leaves their spelling to whoever prints it. Numbers of 64
bits are shown as text, since many printers cannot hold them.
-/

set_option autoImplicit false

namespace MarketWire

inductive Outline where
  | nothing
  | flag (value : Bool)
  | number (value : Int)
  | text (value : String)
  | bytes (content : Bytes)
  | list (items : List Outline)
  | record (members : List (String × Outline))
  deriving Repr

class Outlined (α : Type) where
  outline : α → Outline

export Outlined (outline)

namespace Outline

instance : Outlined Outline := ⟨id⟩
instance : Outlined Unit := ⟨fun _ => .text "ok"⟩
instance : Outlined Bool := ⟨.flag⟩
instance : Outlined Int := ⟨.number⟩
instance : Outlined Nat := ⟨fun n => .number n⟩
instance : Outlined UInt8 := ⟨fun n => .number n.toNat⟩
instance : Outlined UInt16 := ⟨fun n => .number n.toNat⟩
instance : Outlined UInt32 := ⟨fun n => .number n.toNat⟩
instance : Outlined UInt64 := ⟨fun n => .text (toString n)⟩
instance : Outlined Int8 := ⟨fun n => .number n.toInt⟩
instance : Outlined Int16 := ⟨fun n => .number n.toInt⟩
instance : Outlined Int32 := ⟨fun n => .number n.toInt⟩
instance : Outlined Int64 := ⟨fun n => .text (toString n)⟩
instance : Outlined String := ⟨.text⟩

instance {α : Type} [Outlined α] : Outlined (Option α) where
  outline
    | some value => outline value
    | none => .nothing

instance {α : Type} [Outlined α] : Outlined (List α) := ⟨fun items => .list (items.map outline)⟩

instance (priority := 2000) : Outlined Bytes := ⟨.bytes⟩

instance {ε α : Type} [Outlined ε] [Outlined α] : Outlined (Except ε α) where
  outline
    | .ok value => outline value
    | .error error => outline error

/-- The digits of a number in base sixteen, as many as told. -/
def hex (digits n : Nat) : Outline :=
  let digit (place : Nat) : Char := (n / Nat.pow 16 place % 16).digitChar
  .text (String.ofList ((List.range digits).reverse.map digit))

def members : Outline → List (String × Outline)
  | .record members => members
  | _ => []

/-- The name of a kind of errors and the text of one. -/
def error (kind message : String) : Outline :=
  .record [("error", .text kind), ("message", .text message)]

end Outline

def DecodeError.kind : DecodeError → String
  | .overrun .. => "Decode.Overrun"
  | .incompleteData .. => "Decode.IncompleteData"
  | .invalidData .. => "Decode.InvalidData"
  | .unsupportedType .. => "Decode.UnsupportedType"
  | .noSetDefinition .. => "Decode.NoSetDefinition"
  | .typeMismatch .. => "Decode.TypeMismatch"
  | .invalidUtf8 .. => "Decode.InvalidUtf8"
  | .tooManySetDefinitions .. => "Decode.TooManySetDefinitions"
  | .duplicateSetDefinition .. => "Decode.DuplicateSetDefinition"

def EncodeError.kind : EncodeError → String
  | .bufferTooSmall .. => "Encode.BufferTooSmall"
  | .invalidValue .. => "Encode.InvalidValue"
  | .unsupportedType .. => "Encode.UnsupportedType"
  | .invalidState .. => "Encode.InvalidState"
  | .setDefinitionMismatch .. => "Encode.SetDefinitionMismatch"
  | .lengthOverflow .. => "Encode.LengthOverflow"

def DictionaryError.kind : DictionaryError → String
  | .parse .. => "Dictionary.Parse"
  | .atLine _ cause => "Dictionary.AtLine." ++ cause.kind
  | .reservedFid => "Dictionary.ReservedFid"
  | .invalidWireType .. => "Dictionary.InvalidRwfType"
  | .duplicateFid .. => "Dictionary.DuplicateFid"
  | .acronymMismatch .. => "Dictionary.AcronymMismatch"
  | .duplicateEnumValue .. => "Dictionary.DuplicateEnumValue"
  | .duplicateEnumDisplay .. => "Dictionary.DuplicateEnumDisplay"
  | .duplicateEnumTableReference .. => "Dictionary.DuplicateEnumTableReference"
  | .noReferencingFids => "Dictionary.NoReferencingFids"
  | .noEnumTable => "Dictionary.NoEnumTable"
  | .displayValueMismatch .. => "Dictionary.DisplayValueMismatch"
  | .dictionaryIdMismatch .. => "Dictionary.DictionaryIdMismatch"
  | .wrongDictionaryType .. => "Dictionary.WrongDictionaryType"
  | .missingElement .. => "Dictionary.MissingElement"
  | .elementType .. => "Dictionary.ElementType"
  | .setDefinitionCount .. => "Dictionary.SetDefinitionCount"
  | .itemTooLarge .. => "Dictionary.ItemTooLarge"
  | .unreadableFile .. => "Dictionary.Io"
  | .decode cause => "Dictionary." ++ cause.kind
  | .encode cause => "Dictionary." ++ cause.kind

namespace Outline

instance : Outlined DecodeError := ⟨fun e => error e.kind e.message⟩
instance : Outlined EncodeError := ⟨fun e => error e.kind e.message⟩
instance : Outlined DictionaryError := ⟨fun e => error e.kind e.message⟩

/-- A data type is shown by its code. -/
instance : Outlined DataType := ⟨fun type => outline type.code⟩

instance : Outlined SetLayout where
  outline
    | .fixed width => outline width
    | .shortFrame => .text "buf8"
    | .longFrame => .text "buf16"

/-- All that is known of a code. -/
def dataType (code : UInt8) : Outline :=
  let container := ("from_wire", outline (DataType.ofContainerCode? code))
  match DataType.ofCode? code with
  | none => .record [("code", outline code), ("unknown", outline code), container]
  | some type =>
    .record [("code", outline type), ("name", .text type.name), ("display", .text (toString type)),
      ("tag", .text type.tag), ("container", .flag type.isContainer),
      ("primitive", .flag type.isPrimitive), ("set", .flag type.isSetType),
      ("base", outline type.base), ("wire", outline type.containerCode),
      ("set_encoding", outline type.setLayout?), container,
      ("default", .flag (type == (default : DataType)))]

instance : Outlined RealHint where
  outline hint :=
    .record [("code", outline hint.code), ("exponent", outline hint.exponent?),
      ("fraction", outline hint.denominator?), ("non_finite", .flag hint.isNonFinite)]

instance : Outlined Real where
  outline real :=
    .record [("v", outline real.value), ("hint", outline real.hint.code),
      ("blank", .flag real.blank)]

/-- A real with its value as a number of 53 bits and as a decimal. -/
def describedReal (real : Real) : Outline :=
  .record ((outline real).members ++ [("double", hex 16 real.toFloat.toBits.toNat),
    ("decimal", outline (real.toDecimal?.map (·.text))), ("display", .text real.text)])

def dateParts (date : Date) : List Outline :=
  [outline date.day, outline date.month, outline date.year]

def timeParts (time : Time) : List Outline :=
  [outline time.hour, outline time.minute, outline time.second, outline time.millisecond,
    outline time.microsecond, outline time.nanosecond]

instance : Outlined Date := ⟨fun date => .list (dateParts date)⟩
instance : Outlined Time := ⟨fun time => .list (timeParts time)⟩
instance : Outlined DateTime := ⟨fun both => .list (dateParts both.date ++ timeParts both.time)⟩

def civilDateParts (civil : CivilDate) : List Outline :=
  [outline civil.year, outline civil.month, outline civil.day]

def civilTimeParts (civil : CivilTime) : List Outline :=
  [outline civil.hour, outline civil.minute, outline civil.second, outline civil.nanosecond]

instance : Outlined CivilDate := ⟨fun civil => .list (civilDateParts civil)⟩
instance : Outlined CivilTime := ⟨fun civil => .list (civilTimeParts civil)⟩

instance : Outlined (CivilDate × CivilTime) :=
  ⟨fun (date, time) => .list (civilDateParts date ++ civilTimeParts time)⟩

def describedDate (date : Date) : Outline :=
  .record [("v", outline date), ("blank", .flag date.isBlank), ("valid", .flag date.isValid),
    ("display", .text date.text), ("civil", outline date.toCivil?),
    ("leap", .flag (isLeapYear date.year.toNat))]

def describedTime (time : Time) : Outline :=
  .record [("v", outline time), ("blank", .flag time.isBlank), ("valid", .flag time.isValid),
    ("display", .text time.text), ("wire_len", outline time.wireLength)]

def describedDateTime (value : DateTime) : Outline :=
  .record [("v", outline value), ("blank", .flag value.isBlank), ("valid", .flag value.isValid),
    ("display", .text value.text)]

/-- The tag of a primitive value, and its parts. -/
def primitiveParts : Primitive → String × List (String × Outline)
  | .blank type => ("blank", [("type", outline type)])
  | .int n => ("int", [("v", outline n)])
  | .uint n => ("uint", [("v", outline n)])
  | .float bits => ("float", [("bits", hex 8 bits.toNat)])
  | .double bits => ("double", [("bits", hex 16 bits.toNat)])
  | .real real => ("real", (outline real).members)
  | .date date => ("date", [("v", outline date)])
  | .time time => ("time", [("v", outline time)])
  | .dateTime both => ("datetime", [("v", outline both)])
  | .enum n => ("enum", [("v", outline n)])
  | .bytes .buffer content => ("buffer", [("v", .bytes content)])
  | .bytes .ascii content => ("ascii", [("v", .bytes content)])
  | .bytes .utf8 content => ("utf8", [("v", .bytes content)])
  | .bytes .rmtes content => ("rmtes", [("v", .bytes content)])
  | .bytes .array content => ("array", [("v", .bytes content)])
  | .encoded type payload => ("encoded", [("type", outline type), ("v", .bytes payload)])

instance : Outlined Primitive where
  outline value :=
    let (tag, parts) := primitiveParts value
    .record (("t", .text tag) :: parts)

instance : Outlined Fault where
  outline
    | .iteratorOverrun => .text "IteratorOverrun"
    | .incompleteData => .text "IncompleteData"
    | .unsupportedDataType => .text "UnsupportedDataType"
    | .noSetDefinition => .text "NoSetDefinition"
    | .fieldIdNotFound => .text "FieldIdNotFound"
    | .noDictionary => .text "NoDictionary"
    | .unknown => .text "Unknown"

instance : Outlined Marker where
  outline found :=
    .record [("kind", outline found.fault), ("text", .text found.message), ("raw", .bytes found.raw)]

instance : Outlined EntryValue where
  outline value :=
    let kind : Outline :=
      .list [.flag value.primitive?.isSome, .flag value.marker?.isSome, .flag value.isMarker]
    let parts := match value with
      | .primitive value => [("prim", outline value)]
      | .container type content => [("container", outline type), ("data", .bytes content)]
      | .marker found => [("marker", outline found)]
    .record (("is", kind) :: parts)

instance {κ : Type} [Outlined κ] : Outlined (SetEntry κ) :=
  ⟨fun entry => .list [outline entry.key, outline entry.type]⟩

instance {κ : Type} [Outlined κ] : Outlined (SetDefinition κ) where
  outline found :=
    .record [("id", outline found.id), ("len", outline found.size),
      ("empty", .flag found.entries.isEmpty), ("entries", outline found.entries.toList)]

/-- Local set definitions are shown in the order of their ids. -/
instance {κ : Type} [Outlined κ] : Outlined (LocalSets κ) where
  outline sets :=
    outline ((List.range (LocalSets.maxId.toNat + 1)).filterMap fun id => sets.get? (.ofNat id))

end Outline

end MarketWire
