import MarketWire.Text.Utf8

/-! Errors of reading, writing and dictionaries, and the text of each. -/

set_option autoImplicit false

namespace MarketWire

/-- Why bytes could not be read. -/
inductive DecodeError where
  | overrun (needed available : Nat)
  | incompleteData (length : Nat)
  | invalidData (reason : String)
  | unsupportedType (code : UInt8)
  | noSetDefinition (setId : UInt16)
  | typeMismatch (expected found : UInt8)
  | invalidUtf8 (fault : Utf8.Fault)
  | tooManySetDefinitions (setId : UInt16)
  | duplicateSetDefinition (setId : UInt16)
  deriving DecidableEq, Repr

/-- Why a value could not be written. -/
inductive EncodeError where
  | bufferTooSmall (needed available : Nat)
  | invalidValue (reason : String)
  | unsupportedType (code : UInt8)
  | invalidState (reason : String)
  | setDefinitionMismatch (index : Nat) (expected found : UInt8)
  | lengthOverflow (length max : Nat)
  deriving DecidableEq, Repr

/-- Why a dictionary refused an entry, a definition file or a part. -/
inductive DictionaryError where
  | parse (line : Nat) (reason : String)
  | atLine (line : Nat) (cause : DictionaryError)
  | reservedFid
  | invalidWireType (fid : Int16)
  | duplicateFid (fid : Int16)
  | acronymMismatch (fid : Int16) (field enumTable : String)
  | duplicateEnumValue (value : UInt16)
  | duplicateEnumDisplay (display : String)
  | duplicateEnumTableReference (fid : Int16)
  | noReferencingFids
  | noEnumTable
  | displayValueMismatch (values displays : Nat)
  | dictionaryIdMismatch (found expected : Int32)
  | wrongDictionaryType (expected found : Int64)
  | missingElement (name : String)
  | elementType (name : String) (found : UInt8)
  | setDefinitionCount (setId : UInt16) (name : String) (expected found : Nat)
  | itemTooLarge (cursor : Int32)
  | unreadableFile (path reason : String)
  | decode (cause : DecodeError)
  | encode (cause : EncodeError)
  deriving DecidableEq, Repr

/-- An error of any of the three kinds. -/
inductive Error where
  | decode (cause : DecodeError)
  | encode (cause : EncodeError)
  | dictionary (cause : DictionaryError)
  deriving DecidableEq, Repr

/-- Put a text between single quotes. -/
def quoted (text : String) : String := "'" ++ text ++ "'"

def DecodeError.message : DecodeError → String
  | .overrun needed available =>
    "buffer overrun: need " ++ toString needed ++ " bytes, have " ++ toString available
  | .incompleteData length =>
    "incomplete data: " ++ toString length ++ " bytes is not a valid encoding"
  | .invalidData reason => "invalid data: " ++ reason
  | .unsupportedType code => "unsupported data type: " ++ toString code
  | .noSetDefinition setId => "no set definition for set id " ++ toString setId
  | .typeMismatch expected found =>
    "type mismatch: expected " ++ toString expected ++ ", found " ++ toString found
  | .invalidUtf8 fault => "invalid utf-8: " ++ fault.message
  | .tooManySetDefinitions setId =>
    "set id " ++ toString setId ++ " exceeds the local set definition range"
  | .duplicateSetDefinition setId => "duplicate set definition for set id " ++ toString setId

def EncodeError.message : EncodeError → String
  | .bufferTooSmall needed available =>
    "buffer too small: need " ++ toString needed ++ " bytes, have " ++ toString available
  | .invalidValue reason => "invalid value: " ++ reason
  | .unsupportedType code => "unsupported data type: " ++ toString code
  | .invalidState reason => "invalid encoder state: " ++ reason
  | .setDefinitionMismatch index expected found =>
    "set definition mismatch at entry " ++ toString index ++ ": expected " ++ toString expected
      ++ ", found " ++ toString found
  | .lengthOverflow length max =>
    "length " ++ toString length ++ " exceeds maximum " ++ toString max

namespace DictionaryError

def message : DictionaryError → String
  | .parse line reason => "line " ++ toString line ++ ": " ++ reason
  | .atLine line cause => "line " ++ toString line ++ ": " ++ cause.message
  | .reservedFid => "fid 0 is reserved"
  | .invalidWireType fid => "fid " ++ toString fid ++ " has an invalid wire type"
  | .duplicateFid fid => "duplicate definition for fid " ++ toString fid
  | .acronymMismatch fid field enumTable =>
    "acronym mismatch for fid " ++ toString fid ++ ": field " ++ quoted field ++ ", enum table "
      ++ quoted enumTable
  | .duplicateEnumValue value => "duplicate enum value " ++ toString value
  | .duplicateEnumDisplay display => "enum display " ++ quoted display ++ " is not unique"
  | .duplicateEnumTableReference fid =>
    "fid " ++ toString fid ++ " already references an enum table"
  | .noReferencingFids => "enum table has no referencing fids"
  | .noEnumTable => "no enum table found"
  | .displayValueMismatch values displays =>
    "enum table has " ++ toString values ++ " values but " ++ toString displays ++ " displays"
  | .dictionaryIdMismatch found expected =>
    "dictionary id mismatch: found " ++ toString found ++ ", expected " ++ toString expected
  | .wrongDictionaryType expected found =>
    "wrong dictionary type: expected " ++ toString expected ++ ", found " ++ toString found
  | .missingElement name => "missing element " ++ quoted name
  | .elementType name found =>
    "element " ++ quoted name ++ " has unexpected type " ++ toString found
  | .setDefinitionCount setId name expected found =>
    "set definition " ++ toString setId ++ ": " ++ toString found ++ " " ++ quoted name
      ++ " items, " ++ toString expected ++ " declared"
  | .itemTooLarge cursor =>
    "dictionary item at cursor " ++ toString cursor ++ " does not fit in the buffer"
  | .unreadableFile path reason => "cannot read " ++ quoted path ++ ": " ++ reason
  | .decode cause => cause.message
  | .encode cause => cause.message

/-- Attach the number of a line; an error that carries one keeps it. -/
def onLine (line : Nat) : DictionaryError → DictionaryError
  | error@(.parse ..) => error
  | error@(.atLine ..) => error
  | error => .atLine line error

end DictionaryError

def Error.message : Error → String
  | .decode cause => "decode error: " ++ cause.message
  | .encode cause => "encode error: " ++ cause.message
  | .dictionary cause => "dictionary error: " ++ cause.message

end MarketWire
