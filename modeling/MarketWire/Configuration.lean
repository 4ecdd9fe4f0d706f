import MarketWire.DefinitionFile.Enums
import MarketWire.Publication

/-! Where a dictionary comes from and how it is sent. -/

set_option autoImplicit false

namespace MarketWire

structure Configuration where
  fieldPath? : Option String := none
  enumPath? : Option String := none
  verbosity : Verbosity := .normal
  maxPartSize : Nat := Publication.defaultPartSize
  /-- Keep names, so that fields are found by acronym without a search. -/
  nameIndex : Bool := true
  deriving DecidableEq, Repr

namespace Configuration

def addFile (read : String → Except DictionaryError Bytes)
    (parse : Bytes → Dictionary.Update Unit) : Option String → Dictionary.Update Unit
  | some path => do parse (← Summary.lift (read path))
  | none => pure ()

/-- The dictionary that the files define; the definitions of fields are added first. -/
def load (configuration : Configuration) (read : String → Except DictionaryError Bytes) :
    Except DictionaryError Dictionary :=
  let update : Dictionary.Update Unit := do
    addFile read Dictionary.parseFields configuration.fieldPath?
    addFile read Dictionary.parseEnums configuration.enumPath?
  match update (Dictionary.empty.withNames configuration.nameIndex) with
  | .ok _ dictionary => .ok dictionary
  | .error error _ => .error error

end Configuration

end MarketWire
