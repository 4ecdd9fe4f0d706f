import MarketWire.Calendar.DateTime
import MarketWire.Text.Blank

/-! Dates and times in text.

A date may be written as digits alone, with the year first between hyphens, without a year, or as three parts between
slashes or blanks, the month by number or by name. Who knows the names of the months is left open. A time is hours and
minutes, then perhaps seconds, then perhaps a decimal fraction or up to three counts of finer units.
-/

set_option autoImplicit false

namespace MarketWire.Layout

/-- A run of digits at the start of a text: its value, its length and the text behind it. -/
def number (text : List Char) : Nat × Nat × List Char :=
  let digits := text.takeWhile Char.isDigit
  (digits.foldl (fun n c => n * 10 + (c.toNat - '0'.toNat)) 0, digits.length,
    text.dropWhile Char.isDigit)

/-- A run of digits of one of the given lengths. -/
def numberOf (lengths : List Nat) (text : List Char) : Option (Nat × List Char) :=
  let (value, length, rest) := number text
  if lengths.contains length then some (value, rest) else none

/-- What follows a given character at the start of a text. -/
def after (c : Char) : List Char → Option (List Char)
  | [] => none
  | first :: rest => if first = c then some rest else none

def isBlankAscii (c : Char) : Bool :=
  c == ' ' || c == '\t' || c == '\n' || c == '\x0c' || c == '\r'

/-- A date of parts that fit. -/
def dateOf (day month year : Nat) : Option Date :=
  if day < 256 && month < 256 && year < 65536 then
    some ⟨UInt8.ofNat day, UInt8.ofNat month, UInt16.ofNat year⟩
  else none

/-- A year below 100 is one of the twentieth century. -/
def fullYear (year : Nat) : Nat := if year < 100 then year + 1900 else year

/-- The month, and perhaps the day, behind a year and a hyphen. -/
def dateAfterYear (year : Nat) (text : List Char) : Option Date := do
  let (month, rest) ← numberOf [2] text
  match rest with
  | [] => dateOf 0 month year
  | _ =>
    let (day, rest) ← numberOf [2] (← after '-' rest)
    if rest.isEmpty then dateOf day month year else none

/-- Month and day, with a hyphen between them or not. -/
def dateWithoutYear (text : List Char) : Option Date := do
  let (value, length, rest) := number text
  if length = 4 then
    if rest.isEmpty then dateOf (value % 100) (value / 100) 0 else none
  else if length = 2 then
    let (day, rest) ← numberOf [2] (← after '-' rest)
    if rest.isEmpty then dateOf day value 0 else none
  else none

/-- Between blanks further blanks may stand. -/
def skipBlanks (delimiter : Char) (text : List Char) : List Char :=
  if delimiter = ' ' then text.dropWhile isBlankAscii else text

section
variable (monthOf? : String → Option Nat)

/-- The month whose name of three letters starts a text, as far as its name is known. -/
def monthName (text : List Char) : Option (Nat × List Char) := do
  let name := text.take 3
  if name.length < 3 then none
  else return (← monthOf? (String.ofList name), text.drop 3)

/-- The second and third part of a date whose first part is read. A named month stands between day
and year; a first part above 255 is a year before month and day; otherwise the month comes first. -/
def dateInParts (first : Nat) (delimiter : Char) (text : List Char) : Option Date := do
  let text := skipBlanks delimiter text
  let named := text.head?.any Char.isAlpha
  let (second, rest) ← if named then monthName monthOf? text else numberOf [1, 2] text
  let (third, rest) ← numberOf [1, 2, 4] (skipBlanks delimiter (← after delimiter rest))
  if ¬ rest.isEmpty then none
  else if named then dateOf first second (fullYear third)
  else if 255 < first then dateOf third second first
  else dateOf second first (fullYear third)

/-- Four digits are a year and eight digits are year, month and day. -/
def date (text : List Char) : Option Date :=
  let (first, length, rest) := number text
  match length, rest with
  | 4, [] => dateOf 0 0 first
  | 8, [] => dateOf (first % 100) (first / 100 % 100) (first / 10000)
  | 4, '-' :: rest => dateAfterYear first rest
  | 0, '-' :: '-' :: rest => dateWithoutYear rest
  | length, delimiter :: rest =>
    if [1, 2, 4].contains length && (delimiter = '/' || delimiter = ' ') then
      dateInParts monthOf? first delimiter rest
    else none
  | _, [] => none

end

/-- The three digits from a place on of a fraction; digits that are not written are zeros. -/
def fractionGroup (value length place : Nat) : UInt16 :=
  UInt16.ofNat (value * Nat.pow 10 (9 - length) / Nat.pow 10 (6 - place) % 1000)

/-- Counts of finer units, each behind a colon. -/
def finerCounts : Nat → List Char → Option (List Nat × List Char)
  | 0, text => some ([], text)
  | most + 1, text =>
    match after ':' text with
    | none => some ([], text)
    | some text => do
      let (value, rest) ← numberOf [1, 2, 3] text
      let (values, rest) ← finerCounts most rest
      return (value :: values, rest)

/-- What may follow the seconds of a time: a decimal fraction, or up to three counts of finer units. -/
def withFiner (whole : Time) (text : List Char) : Option Time :=
  match after '.' text with
  | some fraction =>
    let (value, length, rest) := number fraction
    if length = 0 || 9 < length || ¬ rest.isEmpty then none
    else
      some { whole with
        millisecond := fractionGroup value length 0
        microsecond := fractionGroup value length 3
        nanosecond := fractionGroup value length 6 }
  | none => do
    let (counts, rest) ← finerCounts 3 text
    if ¬ rest.isEmpty then none
    else
      let count (index : Nat) : UInt16 := UInt16.ofNat (counts.getD index 0)
      some { whole with
        millisecond := count 0
        microsecond := count 1
        nanosecond := count 2 }

def time (text : List Char) : Option Time := do
  let (hour, rest) ← numberOf [1, 2] text
  let (minute, rest) ← numberOf [1, 2] (← after ':' rest)
  let start := Time.ofSeconds (UInt8.ofNat hour) (UInt8.ofNat minute) 0
  if rest.isEmpty then return start
  let (second, rest) ← numberOf [1, 2] (← after ':' rest)
  withFiner { start with second := UInt8.ofNat second } rest

def unreadable (kind text : String) : DecodeError :=
  .invalidData ("cannot parse " ++ kind ++ " from " ++ quoted text)

end Layout

/-- Text of blanks alone is blank; any other text must name a possible date. -/
def Date.ofTextBy (monthOf? : String → Option Nat) (text : String) : Except DecodeError Date :=
  match Blank.trim text.toList with
  | [] => .ok .blank
  | trimmed =>
    match (Layout.date monthOf? trimmed).filter Date.isValid with
    | some date => .ok date
    | none => .error (Layout.unreadable "date" text)

def Date.ofText (text : String) : Except DecodeError Date := ofTextBy monthOfName? text

/-- Text of blanks alone is blank; any other text must name a possible time. -/
def Time.ofText (text : String) : Except DecodeError Time :=
  match Blank.trim text.toList with
  | [] => .ok .blank
  | trimmed =>
    match (Layout.time trimmed).filter Time.isValid with
    | some time => .ok time
    | none => .error (Layout.unreadable "time" text)

namespace DateTime

/-- Where a date ends and a time begins: at the first T when only digits and hyphens stand before
it, else at the last blank when a colon stands behind it. -/
def splitText (text : List Char) : List Char × List Char :=
  let before := text.takeWhile (· ≠ 'T')
  match text.dropWhile (· ≠ 'T') with
  | _ :: after =>
    if before.all fun c => c.isDigit || c = '-' then (before, after) else atBlank text
  | [] => atBlank text
where
  atBlank (text : List Char) : List Char × List Char :=
    let last := text.reverse.takeWhile fun c => !Blank.isBlank c
    match text.reverse.dropWhile fun c => !Blank.isBlank c with
    | _ :: before => if last.contains ':' then (before.reverse, last.reverse) else (text, [])
    | [] => (text, [])

/-- A date alone stands for its midnight. -/
def ofTextBy (monthOf? : String → Option Nat) (text : String) : Except DecodeError DateTime :=
  match Blank.trim text.toList with
  | [] => .ok blank
  | trimmed => do
    let (date, time) := splitText trimmed
    let date ← Date.ofTextBy monthOf? (String.ofList date)
    let time ← if time.isEmpty then pure (Time.ofSeconds 0 0 0) else Time.ofText (String.ofList time)
    return ⟨date, time⟩

def ofText (text : String) : Except DecodeError DateTime := ofTextBy Date.monthOfName? text

end DateTime

end MarketWire
