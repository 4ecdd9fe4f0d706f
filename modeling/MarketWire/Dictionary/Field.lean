import MarketWire.DataType

/-! Definitions of fields: what a dictionary knows of a field identifier. -/

set_option autoImplicit false

namespace MarketWire

/-- The type of a field in older feeds. -/
inductive FieldType where
  | none | integer | numeric | time | date | price | alphanumeric | enumerated | timeSeconds
  | binary | longAlphanumeric | blob
  deriving DecidableEq, Repr

namespace FieldType

def all : List FieldType :=
  [.none, .integer, .numeric, .time, .date, .price, .alphanumeric, .enumerated, .timeSeconds,
   .binary, .longAlphanumeric, .blob]

def code : FieldType → Int8
  | .none => -1
  | .integer => 0
  | .numeric => 1
  | .time => 2
  | .date => 3
  | .price => 4
  | .alphanumeric => 5
  | .enumerated => 6
  | .timeSeconds => 7
  | .binary => 8
  | .longAlphanumeric => 9
  | .blob => 10

def ofCode? (code : Int8) : Option FieldType := all.find? (·.code == code)

def keyword : FieldType → String
  | .none => "NONE"
  | .integer => "INTEGER"
  | .numeric => "NUMERIC"
  | .time => "TIME"
  | .date => "DATE"
  | .price => "PRICE"
  | .alphanumeric => "ALPHANUMERIC"
  | .enumerated => "ENUMERATED"
  | .timeSeconds => "TIME_SECONDS"
  | .binary => "BINARY"
  | .longAlphanumeric => "LONG_ALPHANUMERIC"
  | .blob => "OPAQUE"

/-- One type has a second keyword. -/
def ofKeyword? (word : String) : Option FieldType :=
  if word = "ALPHANUM_XTND" then some .longAlphanumeric else all.find? (·.keyword == word)

@[simp] theorem ofCode?_code (type : FieldType) : ofCode? type.code = some type := by
  cases type <;> decide

end FieldType

/-- The keywords of definition files for data types. -/
def DataType.keywords : List (String × DataType) :=
  [("INT", .int), ("INT32", .int), ("INT64", .int), ("UINT", .uint), ("UINT32", .uint),
   ("UINT64", .uint), ("REAL", .real), ("REAL32", .real), ("REAL64", .real), ("FLOAT", .float),
   ("DOUBLE", .double), ("DATE", .date), ("TIME", .time), ("DATETIME", .dateTime),
   ("DATE_TIME", .dateTime), ("QOS", .qos), ("STATE", .state), ("STATUS", .state),
   ("ENUM", .enum), ("ARRAY", .array), ("BUFFER", .buffer), ("ASCII_STRING", .ascii),
   ("UTF8_STRING", .utf8), ("RMTES_STRING", .rmtes), ("OPAQUE", .blob), ("XML", .xml),
   ("FIELD_LIST", .fieldList), ("ELEMENT_LIST", .elementList), ("ELEM_LIST", .elementList),
   ("ANSI_PAGE", .ansiPage), ("FILTER_LIST", .filterList), ("VECTOR", .vector), ("MAP", .map),
   ("SERIES", .series), ("MSG", .msg), ("JSON", .json)]

def DataType.ofKeyword? (word : String) : Option DataType := keywords.lookup word

/-- The definition of a field. The lengths are those of the older feed, of an enumerated value
shown there, and of the wire format; a ripple target of zero is none. -/
structure FieldDefinition where
  fid : Int16
  acronym : String
  longName : String := ""
  rippleTo : Int16 := 0
  fieldType : FieldType := .none
  length : UInt16 := 0
  enumLength : UInt8 := 0
  wireType : DataType
  wireLength : UInt16 := 0
  deriving DecidableEq, Repr

end MarketWire
