import MarketWire.Container.Record.Reading
import MarketWire.Container.Record.Writing

/-! Element lists: records whose entries are keyed by names and carry their types. -/

set_option autoImplicit false

namespace MarketWire

/-- The information about an element list is a list number. -/
abbrev ElementList.Info := UInt16

instance : RecordFormat String ElementList.Info Bytes where
  noun := "element"
  describesItself := true
  standardFlag := 0x02
  setDataFlag := 0x08
  writeInfo := Write.uint16
  readInfo := Read.uint16
  writeKey name := Write.framed .bits15 (Bytes.ofString name)
  readName := Read.framed .bits15
  nameOf := Bytes.ofString
  noName := []
  describeExpected := id
  describeFound := id
  findSet := Context.elementSet?
  typeOf _ _ := .error .unsupportedDataType

namespace ElementList

abbrev Plan := Record.Plan String Info

abbrev Entry := Record.Entry Bytes

abbrev Content := Record.Content Info Bytes

def nameText (entry : Entry) : Except DecodeError String :=
  (Utf8.decode entry.name).mapError .invalidUtf8

def start (plan : Plan) : Drafting Unit := Record.start plan

def add (plan : Plan) (name : String) (value : Primitive) : Drafting Unit :=
  Record.add plan name value

def addEncoded (plan : Plan) (name : String) (type : DataType) (payload : Bytes) : Drafting Unit :=
  Record.addEncoded plan name (some type) payload

def openEntry (plan : Plan) (name : String) (type : DataType) : Drafting Unit :=
  Record.openEntry plan name (some type)

def closeEntry (commit : Bool) : Drafting Unit := Record.closeEntry String commit

def finish (commit : Bool) : Drafting Unit := Record.finish String commit

def decode (context : Context) (bytes : Bytes) : Except DecodeError Content :=
  Record.decode String context bytes

end ElementList

end MarketWire
