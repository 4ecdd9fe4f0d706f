/-! Whole numbers through a binary form of 53 bits.

`shortest n` is what a reader of text sees of `n` after it has passed through that form: of the
numbers with the fewest significant digits that round to the same binary number, the nearest.
-/

set_option autoImplicit false

namespace MarketWire.Shortest

/-- The whole number `mantissa * 2 ^ exponent`. -/
structure Binary where
  mantissa : Nat
  exponent : Nat
  deriving DecidableEq, Repr

def precision : Nat := 53

/-- Round to 53 bits; a number half way between two goes to the even mantissa. -/
def round (n : Nat) : Binary :=
  let exponent := n.log2 + 1 - precision
  let unit := Nat.pow 2 exponent
  let mantissa := n / unit
  let twice := 2 * (n % unit)
  let up := unit < twice || (twice = unit && mantissa % 2 = 1)
  let mantissa := if up then mantissa + 1 else mantissa
  if mantissa = Nat.pow 2 precision then ⟨mantissa / 2, exponent + 1⟩ else ⟨mantissa, exponent⟩

def Binary.value (b : Binary) : Nat := b.mantissa * Nat.pow 2 b.exponent

/-- A number rounds to this binary number. The bounds are four times the middles to the two
neighbours; they count when the mantissa is even. -/
def Binary.covers (b : Binary) (n : Nat) : Bool :=
  let unit := Nat.pow 2 b.exponent
  let below := if b.mantissa = Nat.pow 2 (precision - 1) then unit else 2 * unit
  let low := 4 * b.value - below
  let high := 4 * b.value + 2 * unit
  if b.mantissa % 2 = 0 then low ≤ 4 * n && 4 * n ≤ high else low < 4 * n && 4 * n < high

/-- The nearest multiple of a power of ten that the binary number covers; of two equally near, the
larger. -/
def Binary.onGrid (b : Binary) (places : Nat) : Option Nat :=
  let step := Nat.pow 10 places
  let value := b.value
  let down := value / step * step
  let up := down + step
  match b.covers down, b.covers up with
  | true, true => if value - down < up - value then some down else some up
  | true, false => some down
  | false, true => some up
  | false, false => none

/-- The whole number with the fewest significant digits that rounds to the same binary number. -/
def shortest (n : Nat) : Nat :=
  let b := round n
  let places := (List.range (Nat.toDigits 10 b.value).length).reverse
  (places.findSome? b.onGrid).getD b.value

end MarketWire.Shortest
