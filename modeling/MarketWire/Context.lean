import MarketWire.SetDefinition.Local
import MarketWire.SetDefinition.Global

/-! What a reader of records knows beside their bytes: set definitions and the types of fields. -/

set_option autoImplicit false

namespace MarketWire

/-- The type of each field that has one. -/
abbrev FieldTypes := Int16 → Option DataType

structure Context where
  localFieldSets : Option (LocalSets Int16) := none
  globalFieldSets : Option (GlobalSets Int16) := none
  localElementSets : Option (LocalSets String) := none
  globalElementSets : Option (GlobalSets String) := none
  fieldTypes : Option FieldTypes := none

namespace Context

/-- Look up a set definition, first among the local ones when the id may be local. -/
def findSet {κ : Type} (localSets : Option (LocalSets κ)) (globalSets : Option (GlobalSets κ))
    (id : UInt16) : Option (SetDefinition κ) :=
  let found := if id ≤ LocalSets.maxId then localSets.bind (·.get? id) else none
  found.or (globalSets.bind (·.get? id))

def fieldSet? (context : Context) (id : UInt16) : Option (SetDefinition Int16) :=
  findSet context.localFieldSets context.globalFieldSets id

def elementSet? (context : Context) (id : UInt16) : Option (SetDefinition String) :=
  findSet context.localElementSets context.globalElementSets id

/-- A summary of the parts that are known, with the number of definitions in each. -/
def summary (context : Context) : String :=
  let count (size : Option Nat) : String := match size with
    | some size => "Some(" ++ toString size ++ ")"
    | none => "None"
  "DecodeContext \x7b local_field_sets: " ++ count (context.localFieldSets.map (·.size))
    ++ ", global_field_sets: " ++ count (context.globalFieldSets.map (·.size))
    ++ ", local_element_sets: " ++ count (context.localElementSets.map (·.size))
    ++ ", global_element_sets: " ++ count (context.globalElementSets.map (·.size))
    ++ ", resolver: " ++ toString context.fieldTypes.isSome ++ " \x7d"

end Context

end MarketWire
