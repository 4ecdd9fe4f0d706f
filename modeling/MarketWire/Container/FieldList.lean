import MarketWire.Container.Record.Reading
import MarketWire.Container.Record.Writing

/-! Field lists: records whose entries are keyed by field identifiers.

The entries carry no type; a dictionary tells it.
-/

set_option autoImplicit false

namespace MarketWire

/-- Which dictionary and which template a field list follows. -/
structure FieldList.Info where
  dictionaryId : UInt16
  listNumber : Int16
  deriving DecidableEq, Repr

instance : RecordFormat Int16 FieldList.Info Int16 where
  noun := "field"
  describesItself := false
  standardFlag := 0x08
  setDataFlag := 0x02
  writeInfo info := do
    Varying.write15 info.dictionaryId.toNat
    Write.int16 info.listNumber
  readInfo := do
    let id ← Varying.read15
    return ⟨UInt16.ofNat id, ← Read.int16⟩
  writeKey := Write.int16
  readName := Read.int16
  nameOf := id
  noName := 0
  describeExpected fid := "fid " ++ toString fid
  describeFound fid := toString fid
  findSet := Context.fieldSet?
  typeOf context fid :=
    match context.fieldTypes with
    | none => .error .noDictionary
    | some types => match types fid with
      | some type => .ok type
      | none => .error .fieldIdNotFound

namespace FieldList

abbrev Plan := Record.Plan Int16 Info

abbrev Entry := Record.Entry Int16

abbrev Content := Record.Content Info Int16

def start (plan : Plan) : Drafting Unit := Record.start plan

def add (plan : Plan) (fid : Int16) (value : Primitive) : Drafting Unit :=
  Record.add plan fid value

def addEncoded (plan : Plan) (fid : Int16) (payload : Bytes) : Drafting Unit :=
  Record.addEncoded plan fid none payload

def openEntry (plan : Plan) (fid : Int16) : Drafting Unit := Record.openEntry plan fid none

def closeEntry (commit : Bool) : Drafting Unit := Record.closeEntry Int16 commit

def finish (commit : Bool) : Drafting Unit := Record.finish Int16 commit

def decode (context : Context) (bytes : Bytes) : Except DecodeError Content :=
  Record.decode Int16 context bytes

end FieldList

end MarketWire
