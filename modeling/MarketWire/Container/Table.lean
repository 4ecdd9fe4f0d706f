import MarketWire.Container.Session
import MarketWire.SetDefinition.Local
import MarketWire.EntryValue

/-! What series and vectors have in common.

The header holds flags, the type of the rows, set definitions for them, a summary, a hint how many
rows there are in all, and the number of rows. The summary is written in place before the rows; when
it is not committed, its flag is cleared again.
-/

set_option autoImplicit false

namespace MarketWire

namespace TableFlag

def setDefinitions : UInt8 := 0x01

def summary : UInt8 := 0x02

def permissions : UInt8 := 0x04

def countHint : UInt8 := 0x08

def sorting : UInt8 := 0x10

/-- The flags of the headers of series, vectors and filter lists. -/
def all : List UInt8 := [setDefinitions, summary, permissions, countHint, sorting]

end TableFlag

/-- Read the code of a container type as headers carry it. -/
def Read.containerType : Read DataType := do
  let code ← Read.byte
  match DataType.ofContainerCode? code with
  | some type => return type
  | none => throw (.unsupportedType (code + DataType.firstContainer))

namespace Table

def maxCount : Nat := 0xFFFF

/-- What is known of a table before its rows. Permission data and sorting are for vectors alone. -/
structure Plan where
  rowType : DataType
  setDefinitions : Option Bytes := none
  summary : Bool := false
  countHint : Option UInt32 := none
  permissions : Bool := false
  sorting : Bool := false

namespace Plan

def flags (plan : Plan) : UInt8 :=
  let flag (present : Bool) (flag : UInt8) : UInt8 := if present then flag else 0
  flag plan.setDefinitions.isSome TableFlag.setDefinitions
    ||| flag plan.summary TableFlag.summary
    ||| flag plan.permissions TableFlag.permissions
    ||| flag plan.countHint.isSome TableFlag.countHint
    ||| flag plan.sorting TableFlag.sorting

/-- Rows of every type but one have a payload. -/
def hasPayload (plan : Plan) : Bool := plan.rowType ≠ .noData

def writeHead (plan : Plan) : Write Unit := do
  Write.byte plan.flags
  Write.byte plan.rowType.containerCode
  match plan.setDefinitions with
  | some encoded => Write.framed .bits15 encoded
  | none => pure ()

/-- Write the header behind the summary and answer the position of the number of rows. -/
def writeTail (plan : Plan) : Write Nat := do
  match plan.countHint with
  | some hint => Varying.write30 hint.toNat
  | none => pure ()
  Write.reserve 2

/-- Keep room for the payload of a row that has one. -/
def reservePayload (present : Bool) : Write (Option LengthSlot) :=
  if present then some <$> LengthSlot.reserve .bits16 else return none

end Plan

open Drafting

def wording : Wording where
  started := "container already initialized"
  notAccepting := "container not accepting entries"
  noOpenEntry := "no open entry"
  unfinished := "container has unfinished parts"
  notStarted := "container not initialized"

/-- Start a table. When a summary is planned, it is written next. -/
def start (plan : Plan) : Drafting Unit := do
  requireIdle wording
  if ¬ plan.rowType.isContainer then throw (.unsupportedType plan.rowType.code)
  let start ← write Write.position
  if plan.summary then
    let slot ← write (Write.atomic do
      plan.writeHead
      LengthSlot.reserve .bits15)
    update fun session => { session with start, phase := .summary (some slot) }
  else
    let countAt ← write (Write.atomic do
      plan.writeHead
      plan.writeTail)
    update fun session => { session with start, phase := .entries, countAt := some countAt }

def closeSummary (plan : Plan) (commit : Bool) : Drafting Unit := do
  let session ← session
  match session.phase with
  | .summary (some slot) =>
    enter (.summary none)
    if commit then write slot.close
    else
      write slot.abandon
      write (Write.patch session.start [{ plan with summary := false }.flags])
    let countAt ← write (Write.atomic plan.writeTail)
    update fun session => { session with phase := .entries, countAt := some countAt }
  | _ => refuse "no summary data open"

def requireRow : Drafting Unit := do
  requireEntries wording
  requireCount maxCount

def closeEntry (commit : Bool) : Drafting Unit := Drafting.closeEntry wording commit

def finish (commit : Bool) : Drafting Unit := Drafting.finish wording 2 commit

structure Header where
  flags : UInt8
  rowType : DataType
  setDefinitions : Option Bytes
  summary : Option Bytes
  countHint : Option Nat
  count : Nat
  deriving DecidableEq, Repr

namespace Header

def read : Read Header := do
  let flags ← Read.byte
  let has (flag : UInt8) : Bool := flags &&& flag ≠ 0
  let rowType ← Read.containerType
  let setDefinitions ← Read.when (has TableFlag.setDefinitions) (Read.framed .bits15)
  let summary ← Read.when (has TableFlag.summary) (Read.framed .bits15)
  let countHint ← Read.when (has TableFlag.countHint) Varying.read30
  let count ← Read.uint16
  return ⟨flags, rowType, setDefinitions, summary, countHint, count.toNat⟩

def sorting (header : Header) : Bool := header.flags &&& TableFlag.sorting ≠ 0

/-- The set definitions for rows of a type, if the rows are of that type. -/
def localSets {κ : Type} [SetKey κ] (header : Header) (rowType : DataType) :
    Option (Except DecodeError (LocalSets κ)) :=
  if header.rowType = rowType then header.setDefinitions.map LocalSets.decode else none

def fieldSets (header : Header) : Option (Except DecodeError (LocalSets Int16)) :=
  header.localSets .fieldList

def elementSets (header : Header) : Option (Except DecodeError (LocalSets String)) :=
  header.localSets .elementList

end Header

end Table

end MarketWire
