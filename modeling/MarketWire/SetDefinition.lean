import MarketWire.DataType
import MarketWire.Bytes.Framed
import MarketWire.Text.Utf8

/-! Set definitions.

A set definition fixes the keys and types of the leading entries of a record, so that these entries
travel without their keys and types. The keys of field lists are field identifiers and those of
element lists are names.
-/

set_option autoImplicit false

namespace MarketWire

/-- An entry of a set definition: a key and the type declared for it. -/
structure SetEntry (κ : Type) where
  key : κ
  type : DataType
  deriving DecidableEq, Repr

structure SetDefinition (κ : Type) where
  id : UInt16
  entries : Array (SetEntry κ)
  deriving DecidableEq, Repr

/-- How the keys of set definitions are written and read. -/
class SetKey (κ : Type) where
  /-- Write an entry: its key, then its type. -/
  writeEntry : SetEntry κ → Write Unit
  readKey : Read κ

def SetDefinition.size {κ : Type} (definition : SetDefinition κ) : Nat := definition.entries.size

/-- A type that set definitions may declare. -/
def Read.setType : Read DataType := do
  let code ← Read.byte
  match (DataType.ofCode? code).filter (·.setLayout?.isSome) with
  | some type => return type
  | none => throw (.unsupportedType code)

instance : SetKey Int16 where
  writeEntry entry :=
    Write.bytes (Bytes.ofNat 2 entry.key.toUInt16.toNat ++ [entry.type.code])
  readKey := Read.int16

instance : SetKey String where
  writeEntry entry := do
    Write.framed .bits15 (Bytes.ofString entry.key)
    Write.byte entry.type.code
  readKey := do Read.ofExcept ((Utf8.decode (← Read.framed .bits15)).mapError .invalidUtf8)

def Read.times {α : Type} (reader : Read α) : Nat → Read (List α)
  | 0 => pure []
  | count + 1 => do
    let first ← reader
    return first :: (← Read.times reader count)

namespace SetDefinition

variable {κ : Type} [SetKey κ]

def write (definition : SetDefinition κ) : Write Unit :=
  if definition.size ≤ 0xFF then do
    Varying.write15 definition.id.toNat
    Write.byte (UInt8.ofNat definition.size)
    Write.each SetKey.writeEntry definition.entries.toList
  else throw (.lengthOverflow definition.size 0xFF)

def readEntry : Read (SetEntry κ) := do
  let key ← SetKey.readKey
  return ⟨key, ← Read.setType⟩

def read : Read (SetDefinition κ) := do
  let id ← Varying.read15
  let count ← Read.byte
  return ⟨UInt16.ofNat id, (← Read.times readEntry count.toNat).toArray⟩

end SetDefinition

end MarketWire
