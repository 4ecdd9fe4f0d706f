import Std.Data.ExtTreeMap
import MarketWire.Error

/-! Tables of enumerated values, shared by the fields that refer to them. -/

set_option autoImplicit false

namespace MarketWire

structure EnumLabel where
  display : Bytes
  meaning : String := ""
  deriving DecidableEq, Repr

/-- The display as text, if it is any. -/
def EnumLabel.text? (label : EnumLabel) : Option String := (Utf8.decode label.display).toOption

/-- The fields that refer to a table, and the labels of its values. -/
structure EnumTable where
  fids : List Int16
  labels : Std.ExtTreeMap UInt16 EnumLabel

namespace EnumTable

/-- Add the labels of values that have none yet. -/
def addLabels (labels : Std.ExtTreeMap UInt16 EnumLabel) :
    List (UInt16 × EnumLabel) → Except DictionaryError (Std.ExtTreeMap UInt16 EnumLabel)
  | [] => .ok labels
  | (value, label) :: rest =>
    if value ∈ labels then .error (.duplicateEnumValue value)
    else addLabels (labels.insert value label) rest

/-- A table for some fields, one at least, with values that are all different. -/
def ofList (fids : List Int16) (values : List (UInt16 × EnumLabel)) :
    Except DictionaryError EnumTable :=
  if fids.isEmpty then .error .noReferencingFids
  else (addLabels ∅ values).map (⟨fids, ·⟩)

def get? (table : EnumTable) (value : UInt16) : Option EnumLabel := table.labels[value]?

/-- The values in ascending order, with their labels. -/
def toList (table : EnumTable) : List (UInt16 × EnumLabel) := table.labels.toList

def size (table : EnumTable) : Nat := table.labels.size

/-- The largest value, or zero in a table without values. -/
def maxValue (table : EnumTable) : UInt16 := table.labels.maxKey?.getD 0

/-- The value with a display, which must be the only one. -/
def valueOf? (table : EnumTable) (display : Bytes) : Except DictionaryError (Option UInt16) :=
  match table.toList.filter (·.2.display == display) with
  | [] => .ok none
  | [(value, _)] => .ok (some value)
  | _ => .error (.duplicateEnumDisplay (String.ofList (Utf8.decodeLossy display)))

end EnumTable

end MarketWire
