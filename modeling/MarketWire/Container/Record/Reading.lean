import MarketWire.Container.Entries
import MarketWire.Container.Record

/-! Reading field lists and element lists.

The header is read first. A value that cannot be read leaves a marker among the entries; an entry
whose end cannot be found leaves a marker as the last entry.
-/

set_option autoImplicit false

namespace MarketWire.Record

/-- An entry of a record; the type of an unreadable one is unknown. -/
structure Entry (Name : Type) where
  name : Name
  type : DataType
  value : EntryValue
  encoded : Bytes
  deriving DecidableEq, Repr

def Entry.ofFault {Name : Type} (name : Name) (fault : Fault) (raw : Bytes) : Entry Name :=
  ⟨name, .unknown, .ofFault fault raw, raw⟩

structure Content (Info Name : Type) where
  info : Option Info := none
  setId : Option UInt16 := none
  count : Nat := 0
  entries : List (Entry Name) := []

variable (κ : Type) {Info Name : Type} [format : RecordFormat κ Info Name]

variable {κ} in
/-- Read an entry of a set definition; one that cannot be read is the last. -/
def setStep (expected : SetEntry κ) (unread : Bytes) : Entry Name × Option Bytes :=
  let name := format.nameOf expected.key
  match Primitive.readSet expected.type unread with
  | .ok value rest =>
    let encoded := unread.take (Primitive.setSize expected.type unread)
    (⟨name, expected.type.base, .primitive value, encoded⟩, some rest)
  | .error error _ => (.ofFault name (.ofError error) unread, none)

/-- The set-defined entries; without a definition one marker stands for all of them. -/
def setBlock (context : Context) (setId : UInt16) (bytes : Bytes) : List (Entry Name) :=
  match format.findSet context setId with
  | some definition => Entries.readEach setStep definition.entries.toList bytes
  | none => [.ofFault format.noName .noSetDefinition bytes]

/-- Read the name, the code of the type if there is one, and the payload of a standard entry. -/
def readFramed : Read (Name × Option UInt8 × Bytes) := do
  let name ← format.readName
  let code ← Read.when format.describesItself Read.byte
  let payload ← if code = some DataType.noData.code then pure [] else Read.framed .bits16
  return (name, code, payload)

def standardEntry (context : Context) (name : Name) (code : Option UInt8) (payload : Bytes) :
    Entry Name :=
  let type : Except Fault DataType := match code with
    | some code => match DataType.ofCode? code with
      | some type => .ok type
      | none => .error .unsupportedDataType
    | none => format.typeOf context name
  match type with
  | .ok type => ⟨name, type, .decode type payload, payload⟩
  | .error fault => .ofFault name fault payload

def step (context : Context) (unread : Bytes) : Entry Name × Option Bytes :=
  match readFramed κ unread with
  | .ok (name, code, payload) rest => (standardEntry κ context name code payload, some rest)
  | .error .. => (.ofFault format.noName .iteratorOverrun unread, none)

/-- Read the information about the list, which may end before its block does. -/
def readInfoBlock : Read Info := do
  let block ← Read.framed .byte
  Read.ofExcept (Read.all format.readInfo block)

/-- Read a record that is not empty. -/
def readContent (context : Context) : Read (Content Info Name) := do
  let flags ← Read.byte
  let has (flag : UInt8) : Bool := flags &&& flag ≠ 0
  let info ← Read.when (has infoFlag) (readInfoBlock κ)
  let setBlock? ← Read.when (has format.setDataFlag) do
    let id ← if has setIdFlag then Varying.read15 else pure 0
    let bytes ← if has format.standardFlag then Read.framed .bits15 else Read.rest
    return (UInt16.ofNat id, bytes)
  let count ← if has format.standardFlag then UInt16.toNat <$> Read.uint16 else pure 0
  let unread ← Read.rest
  let setEntries := match setBlock? with
    | some (id, bytes) => setBlock κ context id bytes
    | none => []
  let standardEntries := Entries.read (step κ context) count unread
  return ⟨info, setBlock?.map Prod.fst, count, setEntries ++ standardEntries⟩

/-- No bytes are a record without anything in it. -/
def decode (context : Context) (bytes : Bytes) : Except DecodeError (Content Info Name) :=
  if bytes.isEmpty then .ok {} else Read.all (readContent κ context) bytes

end MarketWire.Record
