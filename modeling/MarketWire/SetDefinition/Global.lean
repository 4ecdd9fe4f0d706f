import Std.Data.ExtTreeMap
import MarketWire.SetDefinition

/-! The set definitions agreed upon outside of messages. -/

set_option autoImplicit false

namespace MarketWire

/-- Entries of set definitions by id, with the version and the id of the dictionary that carries
them; an id of zero is not known yet. -/
structure GlobalSets (κ : Type) where
  sets : Std.ExtTreeMap UInt16 (Array (SetEntry κ))
  version : String
  dictionaryId : Int32

namespace GlobalSets

variable {κ : Type}

def empty : GlobalSets κ := ⟨∅, "", 0⟩

def size (sets : GlobalSets κ) : Nat := sets.sets.size

/-- Add a definition in place of any other of its id. -/
def add (sets : GlobalSets κ) (definition : SetDefinition κ) : GlobalSets κ :=
  { sets with sets := sets.sets.insert definition.id definition.entries }

def get? (sets : GlobalSets κ) (id : UInt16) : Option (SetDefinition κ) :=
  sets.sets[id]?.map (⟨id, ·⟩)

/-- The definitions in ascending order of ids. -/
def toList (sets : GlobalSets κ) : List (SetDefinition κ) :=
  sets.sets.toList.map fun (id, entries) => ⟨id, entries⟩

/-- The definitions from an id on, in ascending order. -/
def fromId (sets : GlobalSets κ) (id : UInt16) : List (SetDefinition κ) :=
  sets.toList.filter (id ≤ ·.id)

end GlobalSets

end MarketWire
