import MarketWire.Container.Session
import MarketWire.Container.Entries

/-! Arrays: lists of primitive values of one type.

With an item length every item takes exactly so many bytes; without one each item is laid out as an
entry of a set definition of the same type. No bytes are a blank array.
-/

set_option autoImplicit false

namespace MarketWire.ItemArray

open Drafting

def maxCount : Nat := 0xFFFF

/-- The type of the items and the number of bytes of each, zero for items with a length. -/
structure Plan where
  type : DataType
  itemLength : UInt16
  deriving DecidableEq, Repr

/-- The set type in which values of a type take so many bytes. -/
def fixedType? (type : DataType) (length : Nat) : Option DataType :=
  match type, length with
  | .int, 1 => some .int1
  | .int, 2 => some .int2
  | .int, 4 => some .int4
  | .int, 8 => some .int8
  | .uint, 1 => some .uint1
  | .uint, 2 => some .uint2
  | .uint, 4 => some .uint4
  | .uint, 8 => some .uint8
  | .float, 4 => some .float4
  | .double, 8 => some .double8
  | .date, 4 => some .date4
  | .time, 3 => some .time3
  | .time, 5 => some .time5
  | .time, 7 => some .time7
  | .time, 8 => some .time8
  | .dateTime, 7 => some .dateTime7
  | .dateTime, 9 => some .dateTime9
  | .dateTime, 11 => some .dateTime11
  | .dateTime, 12 => some .dateTime12
  | _, _ => none

/-- Types whose items may have any fixed length. -/
def isByteType (type : DataType) : Bool :=
  type = .buffer || type = .ascii || type = .utf8 || type = .rmtes

def isFixedEnum (type : DataType) (length : Nat) : Bool :=
  type = .enum && (length = 1 || length = 2)

namespace Plan

def length (plan : Plan) : Nat := plan.itemLength.toNat

/-- Items of the type can have the length. -/
def lengthFits (plan : Plan) : Bool :=
  plan.length = 0 || isByteType plan.type || isFixedEnum plan.type plan.length
    || (fixedType? plan.type plan.length).isSome

end Plan

def wording : Wording where
  started := "array already initialized"
  notAccepting := "array not accepting items"
  noOpenEntry := ""
  unfinished := ""
  notStarted := "array not initialized"

def start (plan : Plan) : Drafting Unit := do
  requireIdle wording
  if ¬ plan.type.isPrimitive || plan.type = .array || plan.type.setLayout?.isNone then
    throw (.unsupportedType plan.type.code)
  if ¬ plan.lengthFits then
    throw (.invalidValue (plan.type.name ++ " items cannot be " ++ toString plan.length
      ++ " bytes wide"))
  let start ← write Write.position
  let countAt ← write (Write.atomic do
    Write.byte plan.type.code
    Varying.write16 plan.length
    Write.reserve 2)
  update fun session => { session with start, phase := .entries, countAt := some countAt }

def writePadded (width : Nat) (value : Primitive) : Write Unit :=
  match value.content? with
  | none => throw (.invalidValue (value.dataType.name ++ " is not a byte value"))
  | some content =>
    if content.length ≤ width then do
      Write.ensure width
      Write.bytes (content ++ List.replicate (width - content.length) 0)
    else throw (.invalidValue (toString content.length ++ " bytes exceed item length "
      ++ toString width))

def writeFixed (plan : Plan) (value : Primitive) : Write Unit :=
  if isByteType plan.type then writePadded plan.length value
  else match value with
    | .enum n =>
      if Width.ofUnsigned n.toUInt64 ≤ plan.length then
        Width.writeUnsigned n.toUInt64 plan.length
      else throw (.invalidValue ("enum " ++ toString n ++ " exceeds item length "
        ++ toString plan.length))
    | value => match fixedType? plan.type plan.length with
      | some setType => value.encodeSet setType
      | none => throw (.unsupportedType plan.type.code)

def add (plan : Plan) (value : Primitive) : Drafting Unit := do
  requireEntries wording
  if ¬ value.fitsSetType plan.type then
    throw (.setDefinitionMismatch (← session).count plan.type.code value.dataType.code)
  requireCount maxCount
  addEntry (if 0 < plan.length then writeFixed plan value else value.encodeSet plan.type)

/-- End the array: fill in the number of items, or undo all of it. -/
def finish (commit : Bool) : Drafting Unit := do
  let session ← session
  if session.phase ≠ .entries then refuse wording.notStarted
  enter .done
  match commit, session.countAt with
  | true, some position => write (Write.patchNumber position 2 session.count)
  | true, none => pure ()
  | false, _ => write (Write.rewind session.start)

def encode (plan : Plan) (items : List Primitive) : Write Unit := whole do
  start plan
  items.forM (add plan)
  finish true

/-- An array: the type and length of its items and the items up to the first unreadable one. -/
structure Content where
  type : DataType
  itemLength : Nat
  count : Nat
  items : List (Except DecodeError Primitive)

def Content.isBlank (content : Content) : Bool := content.type = .unknown

def blank : Content := ⟨.unknown, 0, 0, []⟩

/-- The value of an item of a fixed length. -/
def decodeFixed (type : DataType) (payload : Bytes) : Except DecodeError Primitive :=
  if isByteType type then Primitive.decode type payload
  else if isFixedEnum type payload.length then .ok (.enum (UInt16.ofNat payload.toNat))
  else match fixedType? type payload.length with
    | some setType => Primitive.decodeFixed setType payload
    | none => .error (.unsupportedType type.code)

def readItem (type : DataType) (length : Nat) : Read Primitive :=
  if length = 0 then Primitive.readSet type
  else do Read.ofExcept (decodeFixed type (← Read.bytes length))

/-- Read an item from the unread bytes; an unreadable item is the last one. -/
def step (type : DataType) (length : Nat) (unread : Bytes) :
    Except DecodeError Primitive × Option Bytes :=
  match readItem type length unread with
  | .ok value rest => (.ok value, some rest)
  | .error error _ => (.error error, none)

def read : Read Content := do
  let code ← Read.byte
  match (DataType.ofCode? code).filter fun type => type.isPrimitive && type ≠ .array with
  | none => throw (.unsupportedType code)
  | some type =>
    let length ← Varying.read16
    let count ← Read.uint16
    let unread ← Read.rest
    return ⟨type, length, count.toNat, Entries.read (step type length) count.toNat unread⟩

def decode (bytes : Bytes) : Except DecodeError Content :=
  if bytes.isEmpty then .ok blank else Read.all read bytes

end MarketWire.ItemArray
