/-! Decimal numbers with a fixed number of places, and their text. -/

set_option autoImplicit false

namespace MarketWire

/-- The number `coefficient / 10 ^ scale`, kept with its places. -/
structure Decimal where
  coefficient : Int
  scale : Nat
  deriving DecidableEq, Repr

namespace Decimal

/-- A coefficient takes 96 bits at most, beside its sign, and there are no more than 28 places. -/
def Fits (d : Decimal) : Prop := d.coefficient.natAbs < Nat.pow 2 96 ∧ d.scale ≤ 28

instance (d : Decimal) : Decidable d.Fits := inferInstanceAs (Decidable (_ ∧ _))

def whole (n : Int) : Decimal := ⟨n, 0⟩

/-- How decimals are multiplied and divided; an operation may have no answer. -/
structure Arithmetic where
  product? : Decimal → Decimal → Option Decimal
  quotient? : Decimal → Decimal → Option Decimal

/-- A fraction with the first of some numbers of places with which it is exact and fits. -/
def withPlaces? (numerator denominator : Int) (places : List Nat) : Option Decimal :=
  places.findSome? fun scale =>
    let raised := numerator * Nat.pow 10 scale
    let d : Decimal := ⟨raised / denominator, scale⟩
    if raised % denominator = 0 && decide d.Fits then some d else none

/-- Exact answers alone. A product keeps the places of both factors if they are not too many; a
quotient that is no whole number has as few places as it needs, but two at least. -/
def Arithmetic.exactly : Arithmetic where
  product? x y :=
    let places := x.scale + y.scale
    withPlaces? (x.coefficient * y.coefficient) (Nat.pow 10 places) (places :: List.range 29)
  quotient? x y :=
    if y.coefficient = 0 then none
    else
      withPlaces? (x.coefficient * Nat.pow 10 y.scale) (y.coefficient * Nat.pow 10 x.scale)
        (0 :: (List.range' 2 27 ++ [1]))

def padLeft (width : Nat) (fill : Char) (text : String) : String :=
  String.ofList (List.replicate (width - text.length) fill) ++ text

/-- All places are written, also those that are zero. -/
def text (d : Decimal) : String :=
  let sign := if d.coefficient < 0 then "-" else ""
  let size := d.coefficient.natAbs
  if d.scale = 0 then sign ++ toString size
  else
    let whole := toString (size / Nat.pow 10 d.scale)
    sign ++ whole ++ "." ++ padLeft d.scale '0' (toString (size % Nat.pow 10 d.scale))

end Decimal

end MarketWire
