import MarketWire.Container.Table
import MarketWire.Container.Entries

/-! Vectors: tables whose entries say what to do with the row at an index. -/

set_option autoImplicit false

namespace MarketWire.Vector

open Drafting

inductive Action where
  | update | set | clear | insert | delete
  deriving DecidableEq, Repr

namespace Action

def all : List Action := [.update, .set, .clear, .insert, .delete]

def code : Action → UInt8
  | .update => 1
  | .set => 2
  | .clear => 3
  | .insert => 4
  | .delete => 5

def ofCode? (code : UInt8) : Option Action := all.find? (·.code == code)

/-- Entries that clear or delete a row carry none. -/
def hasPayload : Action → Bool
  | .clear | .delete => false
  | .update | .set | .insert => true

end Action

def permissionFlag : UInt8 := 0x10

def actionMask : UInt8 := 0x0F

def writeLabel (plan : Table.Plan) (index : UInt32) (action : Action)
    (permission : Option Bytes) : Write Unit := do
  if Varying.max30 < index.toNat then
    throw (.invalidValue ("vector index " ++ toString index ++ " exceeds "
      ++ toString Varying.max30))
  if permission.isSome && ¬ plan.permissions then
    throw (.invalidState "vector does not carry permission data")
  Write.byte ((if permission.isSome then permissionFlag else 0) ||| action.code)
  Varying.write30 index.toNat
  match permission with
  | some permission => Write.framed .bits15 permission
  | none => pure ()

/-- An entry carries a row when its action and the type of the rows do. -/
def hasPayload (plan : Table.Plan) (action : Action) : Bool :=
  action.hasPayload && plan.hasPayload

def add (plan : Table.Plan) (index : UInt32) (action : Action) (permission : Option Bytes)
    (payload : Bytes) : Drafting Unit := do
  Table.requireRow
  addEntry do
    writeLabel plan index action permission
    if hasPayload plan action then Write.framed .bits16 payload

def openEntry (plan : Table.Plan) (index : UInt32) (action : Action)
    (permission : Option Bytes) : Drafting Unit := do
  Table.requireRow
  Drafting.openEntry do
    writeLabel plan index action permission
    Table.Plan.reservePayload (hasPayload plan action)

/-- An entry; one without an action could not be read. -/
structure Entry where
  index : Nat
  action : Option Action
  permission : Option Bytes
  value : EntryValue
  deriving DecidableEq, Repr

structure Content where
  header : Table.Header
  entries : List Entry

/-- Read the permission data and the row of an entry. -/
def readPayload (rowType : DataType) (first : UInt8) (action : Action) :
    Read (Option Bytes × Bytes) := do
  let permission ← Read.when (first &&& permissionFlag ≠ 0) (Read.framed .bits15)
  let payload ←
    if action.hasPayload && rowType ≠ .noData then Read.framed .bits16 else pure []
  return (permission, payload)

def readIndex : Read (UInt8 × Nat) := do
  let first ← Read.byte
  return (first, ← Varying.read30)

/-- Read an entry from the unread bytes. An entry whose end cannot be found and one with an unknown
action are the last. -/
def step (rowType : DataType) (unread : Bytes) : Entry × Option Bytes :=
  let last (index : Nat) (action : Option Action) (fault : Fault) : Entry × Option Bytes :=
    (⟨index, action, none, .ofFault fault unread⟩, none)
  match readIndex unread with
  | .error .. => last 0 none .iteratorOverrun
  | .ok (first, index) rest =>
    match Action.ofCode? (first &&& actionMask) with
    | none => last index none .unknown
    | some action =>
      match readPayload rowType first action rest with
      | .error .. => last index (some action) .iteratorOverrun
      | .ok (permission, payload) rest =>
        (⟨index, some action, permission, .container rowType payload⟩, some rest)

def read : Read Content := do
  let header ← Table.Header.read
  let unread ← Read.rest
  return ⟨header, Entries.read (step header.rowType) header.count unread⟩

def decode (bytes : Bytes) : Except DecodeError Content := Read.all read bytes

end MarketWire.Vector
