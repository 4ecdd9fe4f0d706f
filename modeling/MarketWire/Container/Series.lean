import MarketWire.Container.Table
import MarketWire.Container.Entries

/-! Series: tables of rows of one type in their order. -/

set_option autoImplicit false

namespace MarketWire.Series

open Drafting

def add (plan : Table.Plan) (payload : Bytes) : Drafting Unit := do
  Table.requireRow
  addEntry (if plan.hasPayload then Write.framed .bits16 payload else pure ())

def openEntry (plan : Table.Plan) : Drafting Unit := do
  Table.requireRow
  Drafting.openEntry (Table.Plan.reservePayload plan.hasPayload)

structure Content where
  header : Table.Header
  entries : List EntryValue

/-- Read a row from the unread bytes; a row whose end cannot be found is the last one. -/
def step (rowType : DataType) (unread : Bytes) : EntryValue × Option Bytes :=
  if rowType = .noData then (.container rowType [], some unread)
  else match Read.framed .bits16 unread with
    | .ok payload rest => (.container rowType payload, some rest)
    | .error .. => (.ofFault .iteratorOverrun unread, none)

def read : Read Content := do
  let header ← Table.Header.read
  let unread ← Read.rest
  return ⟨header, Entries.read (step header.rowType) header.count unread⟩

def decode (bytes : Bytes) : Except DecodeError Content := Read.all read bytes

end MarketWire.Series
