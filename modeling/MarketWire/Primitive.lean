import MarketWire.DataType
import MarketWire.Real
import MarketWire.Calendar.DateTime
import MarketWire.Bytes.Framed

/-! Primitive values and their payloads.

Outside set definitions a value is a payload behind its length, and no bytes are blank. Under a set
definition the declared type decides: some types have a fixed width, all others a length of their
own.
-/

set_option autoImplicit false

namespace MarketWire

/-- The primitive types whose values are byte strings. -/
inductive ByteType where
  | buffer | ascii | utf8 | rmtes | array
  deriving DecidableEq, Repr

namespace ByteType

def dataType : ByteType → DataType
  | .buffer => .buffer
  | .ascii => .ascii
  | .utf8 => .utf8
  | .rmtes => .rmtes
  | .array => .array

def ofDataType? : DataType → Option ByteType
  | .buffer => some .buffer
  | .ascii => some .ascii
  | .utf8 => some .utf8
  | .rmtes => some .rmtes
  | .array => some .array
  | _ => none

def isText : ByteType → Bool
  | .ascii | .utf8 | .rmtes => true
  | .buffer | .array => false

end ByteType

/-- A value of a primitive type. Floating-point numbers are kept by their bits, and a payload of a
type without a meaning here is kept as it is. -/
inductive Primitive where
  | blank (type : DataType)
  | int (value : Int64)
  | uint (value : UInt64)
  | float (bits : UInt32)
  | double (bits : UInt64)
  | real (value : Real)
  | date (value : Date)
  | time (value : Time)
  | dateTime (value : DateTime)
  | enum (value : UInt16)
  | bytes (type : ByteType) (content : Bytes)
  | encoded (type : DataType) (payload : Bytes)
  deriving DecidableEq, Repr

namespace Primitive

def ascii (text : String) : Primitive := .bytes .ascii (Bytes.ofString text)

def dataType : Primitive → DataType
  | .blank type => type
  | .int _ => .int
  | .uint _ => .uint
  | .float _ => .float
  | .double _ => .double
  | .real _ => .real
  | .date _ => .date
  | .time _ => .time
  | .dateTime _ => .dateTime
  | .enum _ => .enum
  | .bytes type _ => type.dataType
  | .encoded type _ => type

def isBlank : Primitive → Bool
  | .blank _ => true
  | .real value => value.blank
  | .date value => value.isBlank
  | .time value => value.isBlank
  | .dateTime value => value.isBlank
  | _ => false

def content? : Primitive → Option Bytes
  | .bytes _ content => some content
  | .encoded _ payload => some payload
  | _ => none

def mismatch (expected : DataType) (found : Primitive) : DecodeError :=
  .typeMismatch expected.code found.dataType.code

/-- The text of a string; a blank string is empty. -/
def toText (value : Primitive) : Except DecodeError String :=
  match value with
  | .bytes type content =>
    if type.isText then (Utf8.decode content).mapError .invalidUtf8 else .error (mismatch .ascii value)
  | .blank .ascii | .blank .utf8 | .blank .rmtes => .ok ""
  | _ => .error (mismatch .ascii value)

def toInt64 (value : Primitive) : Except DecodeError Int64 :=
  match value with
  | .int n => .ok n
  | .uint n =>
    if n.toNat < Nat.pow 2 63 then .ok (.ofNat n.toNat)
    else .error (.invalidData (toString n ++ " does not fit in i64"))
  | .enum n => .ok (.ofNat n.toNat)
  | _ => .error (mismatch .int value)

def toUInt64 (value : Primitive) : Except DecodeError UInt64 :=
  match value with
  | .uint n => .ok n
  | .int n =>
    if 0 ≤ n then .ok n.toUInt64 else .error (.invalidData (toString n ++ " is negative"))
  | .enum n => .ok n.toUInt64
  | _ => .error (mismatch .uint value)

/-- Write the payload. An integer takes at least one byte, so that only blanks take none. -/
def encode : Primitive → Write Unit
  | .blank _ => pure ()
  | .int n => Width.writeSigned n (max (Width.ofSigned n) 1)
  | .uint n => Width.writeUnsigned n (max (Width.ofUnsigned n) 1)
  | .enum n => Width.writeUnsigned n.toUInt64 (max (Width.ofUnsigned n.toUInt64) 1)
  | .float bits => Write.uint32 bits
  | .double bits => Write.uint64 bits
  | .real value => value.encode
  | .date value => value.encode
  | .time value => value.encode
  | .dateTime value => value.encode
  | .bytes _ content => Write.bytes content
  | .encoded _ payload => Write.bytes payload

def decodeEnum (payload : Bytes) : Except DecodeError Primitive := do
  let n ← Read.all (Width.readUnsigned payload.length) payload
  if n.toNat < 65536 then return .enum n.toUInt16 else throw (.incompleteData payload.length)

/-- Read a payload of a primitive type or of a set type's primitive type. -/
def decode (type : DataType) (payload : Bytes) : Except DecodeError Primitive :=
  let type := type.base
  if ¬ type.isPrimitive then .error (.unsupportedType type.code)
  else if payload.isEmpty then .ok (.blank type)
  else match type with
    | .int => .int <$> Read.all (Width.readSigned payload.length) payload
    | .uint => .uint <$> Read.all (Width.readUnsigned payload.length) payload
    | .enum => decodeEnum payload
    | .float =>
      if payload.length = 4 then .float <$> Read.all Read.uint32 payload
      else .error (.incompleteData payload.length)
    | .double =>
      if payload.length = 8 then .double <$> Read.all Read.uint64 payload
      else .error (.incompleteData payload.length)
    | .real => .real <$> Real.decode payload
    | .date => .date <$> Date.decode payload
    | .time => .time <$> Time.decode payload
    | .dateTime => .dateTime <$> DateTime.decode payload
    | type => match ByteType.ofDataType? type with
      | some byteType => .ok (.bytes byteType payload)
      | none => .ok (.encoded type payload)

/-- The value may stand where a set definition declares a type. Signed and unsigned integers may
stand for each other. -/
def fitsSetType (value : Primitive) (type : DataType) : Bool :=
  match value with
  | .int _ | .uint _ => type.base = .int || type.base = .uint
  | .blank own | .encoded own _ => own.base = type.base
  | _ => value.dataType = type.base

def outOfRange (type : DataType) : EncodeError :=
  .invalidValue ("value does not fit in " ++ type.name)

def writeFixedSigned (value : Primitive) (type : DataType) (width : Nat) : Write Unit :=
  let n? : Option Int64 := match value with
    | .int n => some n
    | .uint n => if n.toNat < Nat.pow 2 63 then some (.ofNat n.toNat) else none
    | _ => none
  match n? with
  | some n =>
    if Width.ofSigned n ≤ width then Width.writeSigned n width else throw (outOfRange type)
  | none => throw (outOfRange type)

def writeFixedUnsigned (value : Primitive) (type : DataType) (width : Nat) : Write Unit :=
  let n? : Option UInt64 := match value with
    | .uint n => some n
    | .int n => if 0 ≤ n then some n.toUInt64 else none
    | _ => none
  match n? with
  | some n =>
    if Width.ofUnsigned n ≤ width then Width.writeUnsigned n width else throw (outOfRange type)
  | none => throw (outOfRange type)

def encodeFixed (value : Primitive) (type : DataType) (width : Nat) : Write Unit := do
  Write.ensure width
  match type.base, value with
  | .int, value => writeFixedSigned value type width
  | .uint, value => writeFixedUnsigned value type width
  | .float, .float bits => Write.uint32 bits
  | .double, .double bits => Write.uint64 bits
  | .date, .date value => value.encode
  | .time, .time value => Write.bytes (value.bytes width)
  | .dateTime, .dateTime both =>
    Write.bytes (both.date.bytes ++ both.time.bytes (width - Date.wireLength))
  | _, _ =>
    throw (.invalidValue (value.dataType.name ++ " cannot be written as " ++ type.name))

def encodeSet (value : Primitive) (type : DataType) : Write Unit :=
  match type.setLayout? with
  | none => throw (.unsupportedType type.code)
  | some (.fixed width) => value.encodeFixed type width
  | some .shortFrame => LengthSlot.around .byte value.encode
  | some .longFrame => LengthSlot.around .bits16 value.encode

def decodeFixed (type : DataType) (payload : Bytes) : Except DecodeError Primitive :=
  match type.base with
  | .int => .int <$> Read.all (Width.readSigned payload.length) payload
  | .uint => .uint <$> Read.all (Width.readUnsigned payload.length) payload
  | .float => .float <$> Read.all Read.uint32 payload
  | .double => .double <$> Read.all Read.uint64 payload
  | .date => .date <$> Date.decode payload
  | .dateTime => .dateTime <$> DateTime.decode payload
  | _ => .time <$> Time.decode payload

def readSet (type : DataType) : Read Primitive :=
  match type.setLayout? with
  | none => throw (.unsupportedType type.code)
  | some (.fixed width) => do Read.ofExcept (decodeFixed type (← Read.bytes width))
  | some .shortFrame => do Read.ofExcept (decode type (← Read.framed .byte))
  | some .longFrame => do Read.ofExcept (decode type (← Read.framed .bits16))

/-- The number of bytes at the front that are a value in the layout of a set type. -/
def setSize (type : DataType) (bytes : Bytes) : Nat :=
  match type.setLayout? with
  | none => 0
  | some (.fixed width) => width
  | some .shortFrame => LengthForm.byte.frameSize bytes
  | some .longFrame => LengthForm.bits16.frameSize bytes

/-- What a value leaves unread is what stands behind it. -/
theorem readSet_eq_ok {type : DataType} {bytes rest : Bytes} {value : Primitive}
    (h : readSet type bytes = .ok value rest) : rest = bytes.drop (setSize type bytes) := by
  unfold readSet at h
  unfold setSize
  cases layout : type.setLayout? with
  | none => rw [layout] at h; cases h
  | some form =>
    rw [layout] at h
    cases form with
    | fixed width =>
      obtain ⟨payload, taken⟩ := Read.bind_ofExcept_eq_ok h
      obtain ⟨rfl, rfl⟩ := Read.bytes_eq_ok taken
      exact List.drop_left.symm
    | shortFrame =>
      obtain ⟨payload, taken⟩ := Read.bind_ofExcept_eq_ok h
      exact Read.framed_eq_ok taken
    | longFrame =>
      obtain ⟨payload, taken⟩ := Read.bind_ofExcept_eq_ok h
      exact Read.framed_eq_ok taken

end Primitive

end MarketWire
