import MarketWire.Bytes.Reader
import MarketWire.Bytes.Output
import MarketWire.Decimal

/-! Dates of which any component may be missing.

A component of zero is missing, and a date without any component is blank. A civil date has all
components and stands for a day of the Gregorian calendar.
-/

set_option autoImplicit false

namespace MarketWire

/-- A year counts as in the Gregorian calendar extended backwards, with a year zero. -/
def isLeapYear (year : Int) : Bool :=
  year % 4 = 0 && (year % 100 ≠ 0 || year % 400 = 0)

structure CivilDate where
  year : Int
  month : Nat
  day : Nat
  deriving DecidableEq, Repr

structure Date where
  day : UInt8
  month : UInt8
  year : UInt16
  deriving DecidableEq, Repr

namespace Date

def blank : Date := ⟨0, 0, 0⟩

def isBlank (date : Date) : Bool := date = blank

def wireLength : Nat := 4

/-- The last day of a month; a missing month may have 31 days. -/
def lastDay? (month : UInt8) (year : Int) : Option Nat :=
  match month.toNat with
  | 0 | 1 | 3 | 5 | 7 | 8 | 10 | 12 => some 31
  | 4 | 6 | 9 | 11 => some 30
  | 2 => some (if isLeapYear year then 29 else 28)
  | _ => none

def isValid (date : Date) : Bool :=
  match lastDay? date.month date.year.toNat with
  | some last => date.day.toNat ≤ last
  | none => false

/-- The day that a date without missing day and month stands for. -/
def toCivil? (date : Date) : Option CivilDate :=
  if date.month ≠ 0 && date.day ≠ 0 && date.isValid then
    some ⟨date.year.toNat, date.month.toNat, date.day.toNat⟩
  else none

/-- A year that does not fit is missing. -/
def ofCivil (civil : CivilDate) : Date :=
  let year := if 0 ≤ civil.year && civil.year < 65536 then UInt16.ofNat civil.year.toNat else 0
  ⟨UInt8.ofNat civil.day, UInt8.ofNat civil.month, year⟩

def bytes (date : Date) : Bytes := [date.day, date.month] ++ Bytes.ofNat 2 date.year.toNat

def encode (date : Date) : Write Unit := Write.bytes date.bytes

def read : Read Date := do
  let day ← Read.byte
  let month ← Read.byte
  let year ← Read.uint16
  return ⟨day, month, year⟩

/-- No bytes are blank. -/
def decode (payload : Bytes) : Except DecodeError Date :=
  if payload.isEmpty then .ok blank
  else if payload.length = wireLength then Read.all read payload
  else .error (.incompleteData payload.length)

def monthNames : List String :=
  ["JAN", "FEB", "MAR", "APR", "MAY", "JUN", "JUL", "AUG", "SEP", "OCT", "NOV", "DEC"]

def monthName? (month : UInt8) : Option String :=
  if month = 0 then none else monthNames[month.toNat - 1]?

/-- The number of the month of a name, in any case. -/
def monthOfName? (name : String) : Option Nat :=
  (monthNames.findIdx? (·.toList == name.toList.map Char.toUpper)).map (· + 1)

/-- A missing component shows as blanks of its width. -/
def text (date : Date) : String :=
  let day :=
    if date.day = 0 then "  " else Decimal.padLeft 2 '0' (toString date.day)
  let month := match monthName? date.month with
    | some name => " " ++ name ++ " "
    | none => "     "
  let year :=
    if date.year = 0 then "    " else Decimal.padLeft 4 ' ' (toString date.year)
  day ++ month ++ year

end Date

end MarketWire
