import MarketWire.EntryValue
import MarketWire.Context

/-! Records: field lists and element lists.

A record starts with flags. Behind them stand, as the flags tell, information about the list, the id
of a set definition with the entries that it defines, and the number of standard entries with these
entries. A standard entry carries its key and, in records that describe themselves, its type.
-/

set_option autoImplicit false

namespace MarketWire

/-- What the two kinds of records differ in. -/
class RecordFormat (κ : Type) (Info Name : outParam Type) extends SetKey κ where
  noun : String
  /-- Standard entries carry their type. -/
  describesItself : Bool
  standardFlag : UInt8
  setDataFlag : UInt8
  writeInfo : Info → Write Unit
  readInfo : Read Info
  writeKey : κ → Write Unit
  readName : Read Name
  /-- The name under which an entry of a set definition is read. -/
  nameOf : κ → Name
  /-- The name of an entry that could not be read. -/
  noName : Name
  describeExpected : κ → String
  describeFound : κ → String
  findSet : Context → UInt16 → Option (SetDefinition κ)
  /-- The type of an entry that does not carry one. -/
  typeOf : Context → Name → Except Fault DataType

namespace Record

def infoFlag : UInt8 := 0x01

/-- The flag of the id of a set definition; without it the id is zero. -/
def setIdFlag : UInt8 := 0x04

def maxCount : Nat := 0xFFFF

end Record

end MarketWire
