import MarketWire.Primitive

/-! What an entry of a container holds: a primitive value, the bytes of a container, or a marker in
place of a value that could not be read.
-/

set_option autoImplicit false

namespace MarketWire

/-- Why an entry could not be read. -/
inductive Fault where
  | iteratorOverrun
  | incompleteData
  | unsupportedDataType
  | noSetDefinition
  | fieldIdNotFound
  | noDictionary
  | unknown
  deriving DecidableEq, Repr

namespace Fault

def ofError : DecodeError → Fault
  | .overrun .. => .iteratorOverrun
  | .incompleteData _ => .incompleteData
  | .unsupportedType _ => .unsupportedDataType
  | .noSetDefinition _ => .noSetDefinition
  | _ => .unknown

def message : Fault → String
  | .iteratorOverrun => "iterator overrun"
  | .incompleteData => "incomplete data"
  | .unsupportedDataType => "unsupported data type"
  | .noSetDefinition => "no set definition"
  | .fieldIdNotFound => "field id not found"
  | .noDictionary => "no dictionary"
  | .unknown => "unknown error"

end Fault

/-- Bytes that could not be read, and why. -/
structure Marker where
  fault : Fault
  raw : Bytes
  deriving DecidableEq, Repr

def Marker.ofError (error : DecodeError) (raw : Bytes) : Marker := ⟨.ofError error, raw⟩

def Marker.message (marker : Marker) : String :=
  marker.fault.message ++ " (" ++ toString marker.raw.length ++ " raw bytes)"

inductive EntryValue where
  | primitive (value : Primitive)
  | container (type : DataType) (bytes : Bytes)
  | marker (found : Marker)
  deriving DecidableEq, Repr

namespace EntryValue

def primitive? : EntryValue → Option Primitive
  | .primitive value => some value
  | _ => none

def marker? : EntryValue → Option Marker
  | .marker found => some found
  | _ => none

def isMarker (value : EntryValue) : Bool := value.marker?.isSome

/-- Stand for bytes that could not be read. -/
def ofFault (fault : Fault) (raw : Bytes) : EntryValue := .marker ⟨fault, raw⟩

/-- Read a payload of a known type; the bytes of a container stay as they are. -/
def decode (type : DataType) (payload : Bytes) : EntryValue :=
  if type.isContainer then .container type payload
  else match Primitive.decode type payload with
    | .ok value => .primitive value
    | .error error => .marker (.ofError error payload)

end EntryValue

end MarketWire
