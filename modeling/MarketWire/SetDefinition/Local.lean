import MarketWire.SetDefinition

/-! The set definitions that travel within a message. -/

set_option autoImplicit false

namespace MarketWire

/-- Set definitions in the order in which they were added. -/
structure LocalSets (κ : Type) where
  definitions : List (SetDefinition κ)
  deriving DecidableEq, Repr

namespace LocalSets

def maxId : UInt16 := 15

variable {κ : Type}

def empty : LocalSets κ := ⟨[]⟩

def size (sets : LocalSets κ) : Nat := sets.definitions.length

def get? (sets : LocalSets κ) (id : UInt16) : Option (SetDefinition κ) :=
  sets.definitions.find? (·.id == id)

/-- Append a definition whose id is in range and not yet taken. -/
def add (sets : LocalSets κ) (definition : SetDefinition κ) :
    Except DecodeError (LocalSets κ) :=
  if maxId < definition.id then .error (.tooManySetDefinitions definition.id)
  else if (sets.get? definition.id).isSome then .error (.duplicateSetDefinition definition.id)
  else .ok ⟨sets.definitions ++ [definition]⟩

variable [SetKey κ]

/-- Write a byte for flags, of which there are none, the number of definitions and each of them. -/
def encode (sets : LocalSets κ) : Write Unit :=
  if sets.definitions.isEmpty then throw (.invalidState "empty set definition database")
  else Write.atomic do
    Write.byte 0
    Write.byte (UInt8.ofNat sets.size)
    Write.each SetDefinition.write sets.definitions

/-- Read so many definitions and add each to those before it. -/
def readInto (sets : LocalSets κ) : Nat → Read (LocalSets κ)
  | 0 => pure sets
  | count + 1 => do
    let definition ← SetDefinition.read
    readInto (← Read.ofExcept (sets.add definition)) count

def read : Read (LocalSets κ) := do
  Read.skip 1
  let count ← Read.byte
  if count = 0 then throw (.invalidData "empty set definition database")
  readInto empty count.toNat

/-- Bytes behind the last definition do not count. -/
def decode (bytes : Bytes) : Except DecodeError (LocalSets κ) := Read.all read bytes

end LocalSets

end MarketWire
