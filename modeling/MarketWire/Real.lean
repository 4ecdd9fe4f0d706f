import MarketWire.Bytes.Width
import MarketWire.Decimal
import MarketWire.Decimal.Shortest

/-! Reals: a mantissa and a hint how to scale it.

Hints 0 to 21 scale the mantissa by a power of ten from -14 to 7, hints 22 to 30 divide it by a
power of two from 1 to 256, and three hints stand for infinities and for no number.
-/

set_option autoImplicit false

namespace MarketWire

/-- The code of a scaling; codes without a meaning can be held. -/
structure RealHint where
  code : UInt8
  deriving DecidableEq, Repr

namespace RealHint

def infinity : RealHint := ⟨33⟩

def negInfinity : RealHint := ⟨34⟩

def notANumber : RealHint := ⟨35⟩

/-- The exponent of hint 0 is -14. -/
def exponentBias : Int := 14

/-- The hints with a meaning; codes 31 and 32 and those above 35 have none. -/
def ofCode? (code : UInt8) : Option RealHint :=
  if code ≤ 30 || (33 ≤ code && code ≤ 35) then some ⟨code⟩ else none

/-- The hint of a power of ten. -/
def ofExponent? (exponent : Int) : Option RealHint :=
  if -exponentBias ≤ exponent && exponent ≤ 7 then
    some ⟨UInt8.ofNat (exponent + exponentBias).toNat⟩
  else none

/-- The hint of a power of two up to 256. -/
def ofDenominator? (denominator : Nat) : Option RealHint :=
  ((List.range 9).find? fun power => Nat.pow 2 power = denominator).map fun power =>
    ⟨22 + UInt8.ofNat power⟩

def exponent? (hint : RealHint) : Option Int :=
  if hint.code ≤ 21 then some (hint.code.toNat - exponentBias) else none

/-- How often a hint halves the mantissa. -/
def halvings? (hint : RealHint) : Option Nat :=
  if 22 ≤ hint.code && hint.code ≤ 30 then some (hint.code.toNat - 22) else none

def denominator? (hint : RealHint) : Option Nat :=
  hint.halvings?.map (Nat.pow 2)

def isNonFinite (hint : RealHint) : Bool := 33 ≤ hint.code

def whole : RealHint := ⟨14⟩

/-- The hints that have a name of their own. -/
def named : List RealHint :=
  [⟨0⟩, ⟨12⟩, whole, ⟨21⟩, ⟨22⟩, ⟨30⟩, infinity, negInfinity, notANumber]

end RealHint

structure Real where
  value : Int64
  hint : RealHint
  blank : Bool
  deriving DecidableEq, Repr

namespace Real

def ofHint (value : Int64) (hint : RealHint) : Real := ⟨value, hint, false⟩

def blankReal : Real := ⟨0, .whole, true⟩

/-- A power of ten; a negative power is the reciprocal of the positive one. -/
def powerOfTen (exponent : Int) : Float :=
  let power := Float.ofNat (Nat.pow 10 exponent.natAbs)
  if exponent < 0 then 1 / power else power

/-- The real nearest to a number under a hint; a half goes away from zero. -/
def ofFloat (number : Float) (hint : RealHint) : Real :=
  if number.isNaN then ofHint 0 .notANumber
  else if number.isInf then ofHint 0 (if 0 < number then .infinity else .negInfinity)
  else
    let scaled := match hint.exponent?, hint.denominator? with
      | some exponent, _ => number / powerOfTen exponent
      | none, some denominator => number * Float.ofNat denominator
      | none, none => number
    ofHint scaled.round.toInt64 hint

/-- The value as a number of 53 bits; the blank flag does not count. -/
def toFloat (real : Real) : Float :=
  if real.hint = .infinity then 1 / 0
  else if real.hint = .negInfinity then -(1 / 0)
  else if real.hint = .notANumber then 0 / 0
  else match real.hint.exponent?, real.hint.denominator? with
    | some exponent, _ => real.value.toFloat * powerOfTen exponent
    | none, some denominator => real.value.toFloat / Float.ofNat denominator
    | none, none => real.value.toFloat

/-- The exact value, or none for blanks, infinities and hints without a meaning. -/
def toDecimalBy? (arithmetic : Decimal.Arithmetic) (real : Real) : Option Decimal :=
  if real.blank || real.hint.isNonFinite then none
  else match real.hint.exponent? with
    | some exponent =>
      if exponent ≤ 0 then some ⟨real.value.toInt, exponent.natAbs⟩
      else
        let power : Int := Nat.pow 10 exponent.natAbs
        arithmetic.product? (.whole real.value.toInt) (.whole power)
    | none => do
      let denominator ← real.hint.denominator?
      arithmetic.quotient? (.whole real.value.toInt) (.whole denominator)

def toDecimal? (real : Real) : Option Decimal := real.toDecimalBy? .exactly

/-- A mantissa under a hint without a meaning shows as the number of 53 bits that it rounds to. -/
def text (real : Real) : String :=
  if real.blank then ""
  else if real.hint = .infinity then "Inf"
  else if real.hint = .negInfinity then "-Inf"
  else if real.hint = .notANumber then "NaN"
  else match real.toDecimal? with
    | some decimal => decimal.text
    | none =>
      let sign := if real.value < 0 then "-" else ""
      sign ++ toString (Shortest.shortest real.value.toInt.natAbs)

def blankBit : UInt8 := 0x20

def hintMask : UInt8 := 0x1F

/-- A blank is written as no bytes and a non-finite value as its hint alone. -/
def encode (real : Real) : Write Unit :=
  if real.blank then pure ()
  else if real.hint.isNonFinite then Write.byte real.hint.code
  else do
    let width := max (Width.ofSigned real.value) 1
    Write.ensure (width + 1)
    Write.byte real.hint.code
    Width.writeSigned real.value width

def decode (payload : Bytes) : Except DecodeError Real :=
  match payload with
  | [] => .ok blankReal
  | [code] =>
    match (RealHint.ofCode? code).filter (·.isNonFinite) with
    | some hint => .ok (ofHint 0 hint)
    | none => .ok blankReal
  | first :: mantissa =>
    match RealHint.ofCode? (first &&& hintMask) with
    | none =>
      .error (.invalidData ("reserved real hint " ++ toString (first &&& hintMask)))
    | some hint => do
      let value ← Read.all (Width.readSigned mantissa.length) mantissa
      return ⟨value, hint, first &&& blankBit != 0⟩

end Real

end MarketWire
