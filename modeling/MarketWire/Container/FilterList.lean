import MarketWire.Container.Table
import MarketWire.Container.Entries

/-! Filter lists: up to 255 containers under one-byte ids.

The header names the type of most entries; an entry of another type carries its own.
-/

set_option autoImplicit false

namespace MarketWire.FilterList

open Drafting

inductive Action where
  | update | set | clear
  deriving DecidableEq, Repr

namespace Action

def all : List Action := [.update, .set, .clear]

def code : Action → UInt8
  | .update => 1
  | .set => 2
  | .clear => 3

def ofCode? (code : UInt8) : Option Action := all.find? (·.code == code)

end Action

def permissionFlag : UInt8 := 0x10

def typeFlag : UInt8 := 0x20

def actionMask : UInt8 := 0x0F

def maxCount : Nat := 0xFF

structure Plan where
  type : DataType
  permissions : Bool := false
  countHint : Option UInt8 := none

def Plan.flags (plan : Plan) : UInt8 :=
  (if plan.permissions then TableFlag.permissions else 0)
    ||| (if plan.countHint.isSome then TableFlag.countHint else 0)

def wording : Wording where
  started := "filter list already initialized"
  notAccepting := "filter list not accepting entries"
  noOpenEntry := "no open filter entry"
  unfinished := "filter list has an open entry"
  notStarted := "filter list not initialized"

def start (plan : Plan) : Drafting Unit := do
  requireIdle wording
  if ¬ plan.type.isContainer then throw (.unsupportedType plan.type.code)
  let start ← write Write.position
  let countAt ← write (Write.atomic do
    Write.byte plan.flags
    Write.byte plan.type.containerCode
    match plan.countHint with
    | some hint => Write.byte hint
    | none => pure ()
    Write.reserve 1)
  update fun session => { session with start, phase := .entries, countAt := some countAt }

/-- Demand that an entry of a type, with permission data or without, may follow. -/
def requireEntry (plan : Plan) (type : DataType) (permission : Option Bytes) : Drafting Unit := do
  requireEntries wording
  requireCount maxCount
  if ¬ type.isContainer then throw (.unsupportedType type.code)
  if permission.isSome && ¬ plan.permissions then
    refuse "filter list does not carry permission data"

def writeLabel (plan : Plan) (id : UInt8) (action : Action) (type : DataType)
    (permission : Option Bytes) : Write Unit := do
  let ownType := type ≠ plan.type
  Write.byte ((if permission.isSome then permissionFlag else 0)
    ||| (if ownType then typeFlag else 0) ||| action.code)
  Write.byte id
  if ownType then Write.byte type.containerCode
  match permission with
  | some permission => Write.framed .bits15 permission
  | none => pure ()

/-- An entry that clears its filter or whose type has no data carries no payload. -/
def hasPayload (action : Action) (type : DataType) : Bool := action ≠ .clear && type ≠ .noData

def add (plan : Plan) (id : UInt8) (action : Action) (type : DataType)
    (permission : Option Bytes) (payload : Bytes) : Drafting Unit := do
  requireEntry plan type permission
  addEntry do
    writeLabel plan id action type permission
    if hasPayload action type then Write.framed .bits16 payload

def openEntry (plan : Plan) (id : UInt8) (action : Action) (type : DataType)
    (permission : Option Bytes) : Drafting Unit := do
  requireEntry plan type permission
  Drafting.openEntry do
    writeLabel plan id action type permission
    Table.Plan.reservePayload (hasPayload action type)

def closeEntry (commit : Bool) : Drafting Unit := Drafting.closeEntry wording commit

def finish (commit : Bool) : Drafting Unit := Drafting.finish wording 1 commit

/-- An entry; one without an action could not be read. -/
structure Entry where
  id : UInt8
  action : Option Action
  type : DataType
  permission : Option Bytes
  value : EntryValue
  deriving DecidableEq, Repr

structure Content where
  type : DataType
  countHint : Option UInt8
  count : Nat
  entries : List Entry

/-- Read what stands before the payload of an entry: its first byte, its id, a type of its own and
permission data. -/
def readLabel : Read (UInt8 × UInt8 × Option DataType × Option Bytes) := do
  let first ← Read.byte
  let id ← Read.byte
  let type ← Read.when (first &&& typeFlag ≠ 0) Read.containerType
  let permission ← Read.when (first &&& permissionFlag ≠ 0) (Read.framed .bits15)
  return (first, id, type, permission)

/-- Read an entry from the unread bytes. An entry whose end cannot be found and one with an unknown
action or type are the last. -/
def step (listType : DataType) (unread : Bytes) : Entry × Option Bytes :=
  let last (id : UInt8) (fault : Fault) : Entry × Option Bytes :=
    (⟨id, none, .unknown, none, .ofFault fault unread⟩, none)
  match readLabel unread with
  | .error (.unsupportedType _) _ => last 0 .unsupportedDataType
  | .error .. => last 0 .iteratorOverrun
  | .ok (first, id, type, permission) rest =>
    match Action.ofCode? (first &&& actionMask) with
    | none => last id .unknown
    | some action =>
      let type := type.getD listType
      if hasPayload action type then
        match Read.framed .bits16 rest with
        | .ok payload rest => (⟨id, some action, type, permission, .container type payload⟩, some rest)
        | .error .. => last id .iteratorOverrun
      else (⟨id, some action, type, permission, .container type []⟩, some rest)

def read : Read Content := do
  let flags ← Read.byte
  let type ← Read.containerType
  let countHint ← Read.when (flags &&& TableFlag.countHint ≠ 0) Read.byte
  let count ← Read.byte
  let unread ← Read.rest
  return ⟨type, countHint, count.toNat, Entries.read (step type) count.toNat unread⟩

def decode (bytes : Bytes) : Except DecodeError Content := Read.all read bytes

end MarketWire.FilterList
