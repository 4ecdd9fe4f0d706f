import MarketWire.Bytes.Reader
import MarketWire.Bytes.Output

/-! Integers of zero to eight bytes whose width is known from elsewhere. -/

set_option autoImplicit false

namespace MarketWire.Width

/-- A number fits into so many bytes in two's complement. -/
def Fits (width : Nat) (n : Int) : Prop :=
  -(Nat.pow 2 (8 * width - 1) : Int) ≤ n ∧ n < Nat.pow 2 (8 * width - 1)

instance (width : Nat) (n : Int) : Decidable (Fits width n) :=
  inferInstanceAs (Decidable (_ ∧ _))

/-- The least width that holds a signed number; zero needs no byte. -/
def ofSigned (n : Int64) : Nat :=
  if n = 0 then 0 else ((List.range' 1 7).find? fun width => Fits width n.toInt).getD 8

/-- The least width that holds an unsigned number; zero needs no byte. -/
def ofUnsigned (n : UInt64) : Nat :=
  ((List.range 8).find? fun width => n.toNat < Nat.pow 256 width).getD 8

def writeUnsigned (n : UInt64) (width : Nat) : Write Unit :=
  if width ≤ 8 then Write.number width n.toNat
  else throw (.invalidValue ("integer width " ++ toString width ++ " exceeds 8 bytes"))

def writeSigned (n : Int64) (width : Nat) : Write Unit := writeUnsigned n.toUInt64 width

def readUnsigned (width : Nat) : Read UInt64 :=
  if width ≤ 8 then do return .ofNat (← Read.number width) else throw (.incompleteData width)

/-- The number that bytes of a width spell in two's complement. -/
def signed (width n : Nat) : Int := Int.bmod n (Nat.pow 256 width)

def readSigned (width : Nat) : Read Int64 :=
  if width ≤ 8 then do return .ofInt (signed width (← Read.number width))
  else throw (.incompleteData width)

end MarketWire.Width
