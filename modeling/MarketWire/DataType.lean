/-! Data types of the wire format and the codes that stand for them.

A code below 64 is a primitive type, a code from 64 to 127 is a layout that only a set definition
may declare, and a code of 128 or more is a container.
-/

set_option autoImplicit false

namespace MarketWire

inductive DataType where
  | unknown
  | int | uint | float | double | real | date | time | dateTime | qos | state | enum | array
  | buffer | ascii | utf8 | rmtes
  | int1 | uint1 | int2 | uint2 | int4 | uint4 | int8 | uint8 | float4 | double8
  | real4 | real8 | date4 | time3 | time5 | dateTime7 | dateTime9 | dateTime11 | dateTime12
  | time7 | time8
  | noData | blob | xml | fieldList | elementList | ansiPage | filterList | vector | map | series
  | msg | json
  deriving DecidableEq, Repr, Inhabited

/-- How an entry of a set definition is laid out: a fixed number of bytes, or a payload behind a
length of one byte or of one to three bytes. -/
inductive SetLayout where
  | fixed (width : Nat)
  | shortFrame
  | longFrame
  deriving DecidableEq, Repr

namespace DataType

def firstContainer : UInt8 := 128

def firstSetType : UInt8 := 64

def all : List DataType :=
  [.unknown, .int, .uint, .float, .double, .real, .date, .time, .dateTime, .qos, .state, .enum,
   .array, .buffer, .ascii, .utf8, .rmtes, .int1, .uint1, .int2, .uint2, .int4, .uint4, .int8,
   .uint8, .float4, .double8, .real4, .real8, .date4, .time3, .time5, .dateTime7, .dateTime9,
   .dateTime11, .dateTime12, .time7, .time8, .noData, .blob, .xml, .fieldList, .elementList,
   .ansiPage, .filterList, .vector, .map, .series, .msg, .json]

def code : DataType → UInt8
  | .unknown => 0
  | .int => 3
  | .uint => 4
  | .float => 5
  | .double => 6
  | .real => 8
  | .date => 9
  | .time => 10
  | .dateTime => 11
  | .qos => 12
  | .state => 13
  | .enum => 14
  | .array => 15
  | .buffer => 16
  | .ascii => 17
  | .utf8 => 18
  | .rmtes => 19
  | .int1 => 64
  | .uint1 => 65
  | .int2 => 66
  | .uint2 => 67
  | .int4 => 68
  | .uint4 => 69
  | .int8 => 70
  | .uint8 => 71
  | .float4 => 72
  | .double8 => 73
  | .real4 => 74
  | .real8 => 75
  | .date4 => 76
  | .time3 => 77
  | .time5 => 78
  | .dateTime7 => 79
  | .dateTime9 => 80
  | .dateTime11 => 81
  | .dateTime12 => 82
  | .time7 => 83
  | .time8 => 84
  | .noData => 128
  | .blob => 130
  | .xml => 131
  | .fieldList => 132
  | .elementList => 133
  | .ansiPage => 134
  | .filterList => 135
  | .vector => 136
  | .map => 137
  | .series => 138
  | .msg => 141
  | .json => 142

/-- The upper-case name, with the width of a set type behind an underscore. -/
def name : DataType → String
  | .unknown => "UNKNOWN"
  | .int => "INT"
  | .uint => "UINT"
  | .float => "FLOAT"
  | .double => "DOUBLE"
  | .real => "REAL"
  | .date => "DATE"
  | .time => "TIME"
  | .dateTime => "DATETIME"
  | .qos => "QOS"
  | .state => "STATE"
  | .enum => "ENUM"
  | .array => "ARRAY"
  | .buffer => "BUFFER"
  | .ascii => "ASCII_STRING"
  | .utf8 => "UTF8_STRING"
  | .rmtes => "RMTES_STRING"
  | .int1 => "INT_1"
  | .uint1 => "UINT_1"
  | .int2 => "INT_2"
  | .uint2 => "UINT_2"
  | .int4 => "INT_4"
  | .uint4 => "UINT_4"
  | .int8 => "INT_8"
  | .uint8 => "UINT_8"
  | .float4 => "FLOAT_4"
  | .double8 => "DOUBLE_8"
  | .real4 => "REAL_4RB"
  | .real8 => "REAL_8RB"
  | .date4 => "DATE_4"
  | .time3 => "TIME_3"
  | .time5 => "TIME_5"
  | .dateTime7 => "DATETIME_7"
  | .dateTime9 => "DATETIME_9"
  | .dateTime11 => "DATETIME_11"
  | .dateTime12 => "DATETIME_12"
  | .time7 => "TIME_7"
  | .time8 => "TIME_8"
  | .noData => "NO_DATA"
  | .blob => "OPAQUE"
  | .xml => "XML"
  | .fieldList => "FIELD_LIST"
  | .elementList => "ELEMENT_LIST"
  | .ansiPage => "ANSI_PAGE"
  | .filterList => "FILTER_LIST"
  | .vector => "VECTOR"
  | .map => "MAP"
  | .series => "SERIES"
  | .msg => "MSG"
  | .json => "JSON"

instance : ToString DataType := ⟨name⟩

/-- The name that records kept in other formats use: an underscore stands between words and none
before a width. -/
def tag : DataType → String
  | .uint => "U_INT"
  | .dateTime => "DATE_TIME"
  | .int1 => "INT1"
  | .uint1 => "U_INT1"
  | .int2 => "INT2"
  | .uint2 => "U_INT2"
  | .int4 => "INT4"
  | .uint4 => "U_INT4"
  | .int8 => "INT8"
  | .uint8 => "U_INT8"
  | .float4 => "FLOAT4"
  | .double8 => "DOUBLE8"
  | .real4 => "REAL4_RB"
  | .real8 => "REAL8_RB"
  | .date4 => "DATE4"
  | .time3 => "TIME3"
  | .time5 => "TIME5"
  | .dateTime7 => "DATE_TIME7"
  | .dateTime9 => "DATE_TIME9"
  | .dateTime11 => "DATE_TIME11"
  | .dateTime12 => "DATE_TIME12"
  | .time7 => "TIME7"
  | .time8 => "TIME8"
  | type => type.name

def ofCode? (code : UInt8) : Option DataType :=
  all.find? (·.code == code)

def isContainer (type : DataType) : Bool :=
  firstContainer ≤ type.code

/-- Primitive types may stand outside set definitions. -/
def isPrimitive (type : DataType) : Bool :=
  type.code < firstSetType && type != .unknown

def isSetType (type : DataType) : Bool :=
  firstSetType ≤ type.code && type.code < firstContainer

/-- Container headers count container codes from zero. -/
def containerCode (type : DataType) : UInt8 :=
  type.code - firstContainer

/-- The container type that a header names; a code of 128 or more names none. -/
def ofContainerCode? (code : UInt8) : Option DataType :=
  if code < firstContainer then (ofCode? (code + firstContainer)).filter isContainer else none

/-- The primitive type as which a set type is read; every other type stands for itself. -/
def base : DataType → DataType
  | .int1 | .int2 | .int4 | .int8 => .int
  | .uint1 | .uint2 | .uint4 | .uint8 => .uint
  | .float4 => .float
  | .double8 => .double
  | .real4 | .real8 => .real
  | .date4 => .date
  | .time3 | .time5 | .time7 | .time8 => .time
  | .dateTime7 | .dateTime9 | .dateTime11 | .dateTime12 => .dateTime
  | type => type

/-- The layout under a set definition, or none for a type that no set may declare. -/
def setLayout? : DataType → Option SetLayout
  | .int1 | .uint1 => some (.fixed 1)
  | .int2 | .uint2 => some (.fixed 2)
  | .time3 => some (.fixed 3)
  | .int4 | .uint4 | .float4 | .date4 => some (.fixed 4)
  | .time5 => some (.fixed 5)
  | .dateTime7 | .time7 => some (.fixed 7)
  | .int8 | .uint8 | .double8 | .time8 => some (.fixed 8)
  | .dateTime9 => some (.fixed 9)
  | .dateTime11 => some (.fixed 11)
  | .dateTime12 => some (.fixed 12)
  | .int | .uint | .float | .double | .real | .date | .time | .dateTime | .qos => some .shortFrame
  | .unknown | .real4 | .real8 => none
  | _ => some .longFrame

@[simp] theorem ofCode?_code (type : DataType) : ofCode? type.code = some type := by
  cases type <;> decide

theorem code_injective {first second : DataType} (h : first.code = second.code) :
    first = second := by
  have same := ofCode?_code first
  rw [h, ofCode?_code] at same
  exact (Option.some.inj same).symm

theorem ofContainerCode?_containerCode {type : DataType} (h : type.isContainer) :
    ofContainerCode? type.containerCode = some type := by
  revert h
  cases type <;> decide

@[simp] theorem base_base (type : DataType) : type.base.base = type.base := by
  cases type <;> rfl

end DataType

end MarketWire
