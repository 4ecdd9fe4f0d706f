/-! What dictionaries that travel may hold, and how much of it they tell. -/

set_option autoImplicit false

namespace MarketWire

inductive DictionaryKind where
  | fields | enums | fieldSets | elementSets
  deriving DecidableEq, Repr

namespace DictionaryKind

def all : List DictionaryKind := [.fields, .enums, .fieldSets, .elementSets]

def code : DictionaryKind → UInt8
  | .fields => 1
  | .enums => 2
  | .fieldSets => 8
  | .elementSets => 9

def ofCode? (code : Nat) : Option DictionaryKind := all.find? (·.code.toNat == code)

/-- The code as a number with a sign. -/
def number (kind : DictionaryKind) : Int64 := Int64.ofNat kind.code.toNat

end DictionaryKind

/-- How much of each entry travels: none of the entries, what is needed to read values, what
people read as well, or everything. -/
inductive Verbosity where
  | info | minimal | normal | verbose
  deriving DecidableEq, Repr

namespace Verbosity

def all : List Verbosity := [.info, .minimal, .normal, .verbose]

def code : Verbosity → UInt8
  | .info => 0x0
  | .minimal => 0x3
  | .normal => 0x7
  | .verbose => 0xF

def ofCode? (code : UInt8) : Option Verbosity := all.find? (·.code == code)

/-- A verbosity includes another one when its code is no less. -/
def includes (verbosity other : Verbosity) : Bool := other.code ≤ verbosity.code

end Verbosity

end MarketWire
