import MarketWire.Bytes.Reader
import MarketWire.Bytes.Output
import MarketWire.Decimal

/-! Times of day of which the finer components may be blank.

Each component has a blank value of its own above its range, and a time without any component is
blank. A time is written in the shortest of five lengths that holds every component other than
zero.
-/

set_option autoImplicit false

namespace MarketWire

/-- A time of day with all components; a leap second has a nanosecond count of a milliard or
more. -/
structure CivilTime where
  hour : Nat
  minute : Nat
  second : Nat
  nanosecond : Nat
  deriving DecidableEq, Repr

def CivilTime.ofSeconds (seconds nanosecond : Nat) : CivilTime :=
  ⟨seconds / 3600, seconds / 60 % 60, seconds % 60, nanosecond⟩

structure Time where
  hour : UInt8
  minute : UInt8
  second : UInt8
  millisecond : UInt16
  microsecond : UInt16
  nanosecond : UInt16
  deriving DecidableEq, Repr

namespace Time

def blankByte : UInt8 := 255

def blankMilli : UInt16 := 65535

def blankSubMilli : UInt16 := 2047

def blank : Time := ⟨blankByte, blankByte, blankByte, blankMilli, blankSubMilli, blankSubMilli⟩

def isBlank (time : Time) : Bool := time = blank

def ofSeconds (hour minute second : UInt8) : Time := ⟨hour, minute, second, 0, 0, 0⟩

/-- For each component, the coarsest first, whether it is blank and whether it is in range. -/
def components (time : Time) : List (Bool × Bool) :=
  [(time.hour = blankByte, time.hour ≤ 23), (time.minute = blankByte, time.minute ≤ 59),
   (time.second = blankByte, time.second ≤ 60),
   (time.millisecond = blankMilli, time.millisecond ≤ 999),
   (time.microsecond = blankSubMilli, time.microsecond ≤ 999),
   (time.nanosecond = blankSubMilli, time.nanosecond ≤ 999)]

/-- Every component is blank or in range, and no component is set below a blank one. -/
def isValid (time : Time) : Bool :=
  time.components.all (fun (blank, inRange) => blank || inRange)
    && (time.components.dropWhile fun (blank, _) => !blank).all Prod.fst

/-- The number of bytes of the shortest form. -/
def wireLength (time : Time) : Nat :=
  if time.nanosecond ≠ 0 then 8
  else if time.microsecond ≠ 0 then 7
  else if time.millisecond ≠ 0 then 5
  else if time.second ≠ 0 then 3
  else 2

/-- The microsecond with the upper bits of the nanosecond above it, then the lower byte of the
nanosecond. -/
def packedBytes (time : Time) : Bytes :=
  let packed := ((time.nanosecond &&& 0xFF00) <<< 3) ||| time.microsecond
  Bytes.ofNat 2 packed.toNat ++ [UInt8.ofNat time.nanosecond.toNat]

/-- The form of a length of 2, 3, 5, 7 or 8 bytes; finer components are left out. -/
def bytes (time : Time) (length : Nat) : Bytes :=
  let seconds := if 3 ≤ length then [time.second] else []
  let millis := if 5 ≤ length then Bytes.ofNat 2 time.millisecond.toNat else []
  let finer :=
    if length = 7 then Bytes.ofNat 2 time.microsecond.toNat
    else if length = 8 then time.packedBytes
    else []
  [time.hour, time.minute] ++ seconds ++ millis ++ finer

def encode (time : Time) : Write Unit := Write.bytes (time.bytes time.wireLength)

/-- Components that a form leaves out are blank after a blank hour and zero otherwise. -/
def readFrom (length : Nat) : Read Time := do
  if ¬ [2, 3, 5, 7, 8].contains length then throw (.incompleteData length)
  let hour ← Read.byte
  let minute ← Read.byte
  let start := if hour = blankByte then blank else ofSeconds 0 0 0
  let second ← if 3 ≤ length then Read.byte else pure start.second
  let millisecond ← if 5 ≤ length then Read.uint16 else pure start.millisecond
  if length = 7 then
    let microsecond ← Read.uint16
    return ⟨hour, minute, second, millisecond, microsecond, start.nanosecond⟩
  else if length = 8 then
    let packed ← Read.uint16
    let low ← Read.byte
    return ⟨hour, minute, second, millisecond, packed &&& 0x07FF,
      ((packed &&& 0x3800) >>> 3) + low.toUInt16⟩
  else
    return ⟨hour, minute, second, millisecond, start.microsecond, start.nanosecond⟩

/-- No bytes are blank. -/
def decode (payload : Bytes) : Except DecodeError Time :=
  if payload.isEmpty then .ok blank else Read.all (readFrom payload.length) payload

/-- The time of day when every component is set; second 60 stands for no time of day. -/
def toCivil? (time : Time) : Option CivilTime :=
  if time.millisecond ≤ 999 && time.microsecond ≤ 999 && time.nanosecond ≤ 999
      && time.hour ≤ 23 && time.minute ≤ 59 && time.second ≤ 59 then
    some ⟨time.hour.toNat, time.minute.toNat, time.second.toNat,
      time.millisecond.toNat * 1000000 + time.microsecond.toNat * 1000 + time.nanosecond.toNat⟩
  else none

/-- The extra count of a leap second is left out. -/
def ofCivil (civil : CivilTime) : Time :=
  let nanos := civil.nanosecond % 1000000000
  ⟨UInt8.ofNat civil.hour, UInt8.ofNat civil.minute, UInt8.ofNat civil.second,
    UInt16.ofNat (nanos / 1000000), UInt16.ofNat (nanos / 1000 % 1000), UInt16.ofNat (nanos % 1000)⟩

/-- Text ends before the first blank component. -/
def text (time : Time) : String :=
  let parts : List (Bool × String) :=
    [(time.hour = blankByte, Decimal.padLeft 2 '0' (toString time.hour)),
     (time.minute = blankByte, ":" ++ Decimal.padLeft 2 '0' (toString time.minute)),
     (time.second = blankByte, ":" ++ Decimal.padLeft 2 '0' (toString time.second)),
     (time.millisecond = blankMilli, "." ++ Decimal.padLeft 3 '0' (toString time.millisecond)),
     (time.microsecond = blankSubMilli, Decimal.padLeft 3 '0' (toString time.microsecond)),
     (time.nanosecond = blankSubMilli, Decimal.padLeft 3 '0' (toString time.nanosecond))]
  String.join ((parts.takeWhile fun (blank, _) => !blank).map Prod.snd)

end Time

end MarketWire
