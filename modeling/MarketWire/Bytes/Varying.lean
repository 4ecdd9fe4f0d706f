import MarketWire.Bytes.Reader
import MarketWire.Bytes.Output

/-! Numbers of varying length.

Four forms fit the number of bytes to the number. Two keep bits of the first byte for the length:
one bit for 15-bit numbers, two bits for 30-bit numbers. Two keep values of the first byte: 254
announces a number of two bytes and, in the 32-bit form, 255 announces one of four. Writers take
the shortest form that holds the number.
-/

set_option autoImplicit false

namespace MarketWire.Varying

def max15 : Nat := 0x7FFF

def max30 : Nat := 0x3FFFFFFF

/-- The largest number that stands for itself in the forms with announced lengths. -/
def maxDirect : Nat := 0xFD

def announces2 : UInt8 := 0xFE

def announces4 : UInt8 := 0xFF

def form15 (n : Nat) : Bytes :=
  if n < 0x80 then [UInt8.ofNat n] else Bytes.ofNat 2 (n + 0x8000)

def form16 (n : Nat) : Bytes :=
  if n ≤ maxDirect then [UInt8.ofNat n] else announces2 :: Bytes.ofNat 2 n

/-- The top two bits 00, 10, 01 and 11 announce none to three further bytes. -/
def form30 (n : Nat) : Bytes :=
  if n < 0x40 then [UInt8.ofNat n]
  else if n < 0x4000 then Bytes.ofNat 2 (n + 0x8000)
  else if n < 0x400000 then Bytes.ofNat 3 (n + 0x400000)
  else Bytes.ofNat 4 (n + 0xC0000000)

def form32 (n : Nat) : Bytes :=
  if n ≤ maxDirect then [UInt8.ofNat n]
  else if n ≤ 0xFFFF then announces2 :: Bytes.ofNat 2 n
  else announces4 :: Bytes.ofNat 4 n

def write15 (n : Nat) : Write Unit :=
  if n ≤ max15 then Write.bytes (form15 n)
  else throw (.invalidValue (toString n ++ " exceeds the u15rb range"))

def write16 (n : Nat) : Write Unit := Write.bytes (form16 n)

def write30 (n : Nat) : Write Unit :=
  if n ≤ max30 then Write.bytes (form30 n)
  else throw (.invalidValue (toString n ++ " exceeds the u30rb range"))

def write32 (n : Nat) : Write Unit := Write.bytes (form32 n)

def read15 : Read Nat := do
  let first := (← Read.byte).toNat
  if first < 0x80 then return first
  let second := (← Read.byte).toNat
  return (first - 0x80) * 256 + second

def read16 : Read Nat := do
  let first ← Read.byte
  if first = announces2 then Read.number 2 else return first.toNat

/-- The number of bytes after the first one of a 30-bit number. -/
def further30 (first : Nat) : Nat :=
  if first < 0x40 then 0 else if first < 0x80 then 2 else if first < 0xC0 then 1 else 3

def read30 : Read Nat := do
  let first := (← Read.byte).toNat
  let further := further30 first
  let rest ← Read.bytes further
  return first % 0x40 * Nat.pow 256 further + rest.toNat

def read32 : Read Nat := do
  let first ← Read.byte
  if first = announces2 then Read.number 2
  else if first = announces4 then Read.number 4
  else return first.toNat

end MarketWire.Varying
