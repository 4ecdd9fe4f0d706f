import MarketWire.Container.Session
import MarketWire.Container.Record

/-! Writing field lists and element lists.

When a set definition is given, the leading entries must be its entries in their order; standard
entries follow, if the plan allows them.
-/

set_option autoImplicit false

namespace MarketWire.Record

structure Plan (κ Info : Type) where
  info : Option Info := none
  definition : Option (SetDefinition κ) := none
  standard : Bool := true

variable {κ Info Name : Type}

/-- The set definition that the leading entries follow; one without entries counts for none. -/
def Plan.activeSet (plan : Plan κ Info) : Option (SetDefinition κ) :=
  plan.definition.filter fun definition => !definition.entries.isEmpty

variable [RecordFormat κ Info Name]

def wording (κ : Type) {Info Name : Type} [format : RecordFormat κ Info Name] : Wording where
  started := format.noun ++ " list already initialized"
  notAccepting := format.noun ++ " list not accepting entries"
  noOpenEntry := "no open " ++ format.noun ++ " entry"
  unfinished := format.noun ++ " list has unfinished entries"
  notStarted := format.noun ++ " list not initialized"

namespace Plan

def flags (plan : Plan κ Info) : UInt8 :=
  let format : RecordFormat κ Info Name := inferInstance
  let info := if plan.info.isSome then infoFlag else 0
  let setData := match plan.activeSet with
    | some definition =>
      format.setDataFlag ||| (if definition.id ≠ 0 then setIdFlag else 0)
    | none => 0
  let standard := if plan.standard then format.standardFlag else 0
  info ||| setData ||| standard

/-- Write all before the first entry, and keep room for the length of set-defined entries when
standard entries follow them. -/
def writeHeader (plan : Plan κ Info) : Write (Option LengthSlot) := do
  Write.byte plan.flags
  match plan.info with
  | some info => LengthSlot.around .byte (RecordFormat.writeInfo κ info)
  | none => pure ()
  match plan.activeSet with
  | some definition =>
    if definition.id ≠ 0 then Varying.write15 definition.id.toNat
    if plan.standard then some <$> LengthSlot.reserve .bits15 else return none
  | none =>
    if plan.standard then
      let _ ← Write.reserve 2
      return none
    else return none

end Plan

open Drafting

def start (plan : Plan κ Info) : Drafting Unit := do
  requireIdle (wording κ)
  let start ← write Write.position
  let slot ← write (Write.atomic plan.writeHeader)
  let here ← write Write.position
  update fun session => match plan.activeSet with
    | some _ => { session with start, phase := .setData 0 slot }
    | none =>
      { session with start, phase := .entries, countAt := if plan.standard then some (here - 2) else none }

/-- Add the next entry of the set definition. After the last one its length is filled in and room
for the number of standard entries is kept. -/
def addSetEntry [DecidableEq κ] (plan : Plan κ Info) (written : Nat) (slot : Option LengthSlot) (key : κ)
    (value : Primitive) : Drafting Unit := do
  let format : RecordFormat κ Info Name := inferInstance
  let definition := (plan.activeSet.map (·.entries)).getD #[]
  match definition[written]? with
  | none => refuse "set definition exhausted"
  | some expected =>
    if expected.key ≠ key then
      throw (.invalidValue ("set entry " ++ toString written ++ " expects "
        ++ format.describeExpected expected.key ++ ", got " ++ format.describeFound key))
    if ¬ value.fitsSetType expected.type then
      throw (.setDefinitionMismatch written expected.type.code value.dataType.code)
    let isLast := written + 1 == definition.size
    write (Write.atomic do
      value.encodeSet expected.type
      if isLast && plan.standard then Write.ensure 2)
    enter (.setData (written + 1) slot)
    if isLast then
      match slot with
      | some slot => write slot.close
      | none => pure ()
      if plan.standard then
        let position ← write (Write.reserve 2)
        update ({ · with countAt := some position })
      enter .entries

def requireStandard (plan : Plan κ Info) : Drafting Unit := do
  let format : RecordFormat κ Info Name := inferInstance
  requireEntries (wording κ)
  if ¬ plan.standard then refuse (format.noun ++ " list has no standard data")
  requireCount maxCount

def writeLabel (key : κ) (type : Option DataType) : Write Unit := do
  RecordFormat.writeKey key
  match type with
  | some type => Write.byte type.code
  | none => pure ()

/-- Entries of every type but one have a payload. -/
def hasPayload (type : Option DataType) : Bool := type ≠ some .noData

/-- Add an entry with a primitive value; while set-defined entries are missing, it must be the next
of them. -/
def add [DecidableEq κ] (plan : Plan κ Info) (key : κ) (value : Primitive) : Drafting Unit := do
  let format : RecordFormat κ Info Name := inferInstance
  match (← session).phase with
  | .setData written slot => addSetEntry plan written slot key value
  | _ =>
    requireStandard plan
    addEntry do
      writeLabel key (if format.describesItself then some value.dataType else none)
      LengthSlot.around .bits16 value.encode

def addEncoded (plan : Plan κ Info) (key : κ) (type : Option DataType) (payload : Bytes) :
    Drafting Unit := do
  requireStandard plan
  addEntry do
    writeLabel key type
    if hasPayload type then Write.framed .bits16 payload

def openEntry (plan : Plan κ Info) (key : κ) (type : Option DataType) : Drafting Unit := do
  requireStandard plan
  Drafting.openEntry do
    writeLabel key type
    if hasPayload type then some <$> LengthSlot.reserve .bits16 else return none

def closeEntry (κ : Type) {Info Name : Type} [RecordFormat κ Info Name] (commit : Bool) :
    Drafting Unit :=
  Drafting.closeEntry (wording κ) commit

def finish (κ : Type) {Info Name : Type} [RecordFormat κ Info Name] (commit : Bool) :
    Drafting Unit :=
  Drafting.finish (wording κ) 2 commit

end MarketWire.Record
