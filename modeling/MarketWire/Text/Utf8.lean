import MarketWire.Bytes

/-! UTF-8 text in byte strings.

`decode` accepts exactly the byte form of a text. The fault of any other byte string names the
length of its longest valid start and the bytes that stop there: the start of one character, or
none when the string ends inside a character.
-/

set_option autoImplicit false

namespace MarketWire.Utf8

/-- Where a byte string stops being text. -/
structure Fault where
  validUpTo : Nat
  errorLength : Option Nat
  deriving DecidableEq, Repr

def Fault.message (fault : Fault) : String :=
  match fault.errorLength with
  | some length =>
    "invalid utf-8 sequence of " ++ toString length ++ " bytes from index "
      ++ toString fault.validUpTo
  | none => "incomplete utf-8 byte sequence from index " ++ toString fault.validUpTo

/-- What stands at the start of a byte string. -/
inductive Piece where
  | character (length : Nat)
  | invalid (length : Nat)
  | incomplete (length : Nat)
  deriving DecidableEq, Repr

/-- The range of the second byte after a leading byte, and the length of the character; none for a
byte that starts no character of several bytes. -/
def lead? (byte : UInt8) : Option (Nat × UInt8 × UInt8) :=
  if 0xC2 ≤ byte && byte ≤ 0xDF then some (2, 0x80, 0xBF)
  else if byte = 0xE0 then some (3, 0xA0, 0xBF)
  else if byte = 0xED then some (3, 0x80, 0x9F)
  else if 0xE1 ≤ byte && byte ≤ 0xEF then some (3, 0x80, 0xBF)
  else if byte = 0xF0 then some (4, 0x90, 0xBF)
  else if byte = 0xF4 then some (4, 0x80, 0x8F)
  else if 0xF1 ≤ byte && byte ≤ 0xF3 then some (4, 0x80, 0xBF)
  else none

/-- Continue a character of which `done` bytes are read and `missing` are not. -/
def continued (done : Nat) : Nat → Bytes → Piece
  | 0, _ => .character done
  | _ + 1, [] => .incomplete done
  | missing + 1, byte :: rest =>
    if 0x80 ≤ byte && byte ≤ 0xBF then continued (done + 1) missing rest else .invalid done

/-- The first character of a byte string, or as many bytes as could have begun one. -/
def piece (first : UInt8) (rest : Bytes) : Piece :=
  if first < 0x80 then .character 1 else
  match lead? first with
  | none => .invalid 1
  | some (length, low, high) =>
    match rest with
    | [] => .incomplete 1
    | second :: rest =>
      if low ≤ second && second ≤ high then continued 2 (length - 2) rest else .invalid 1

/-- The first place at which a byte string is not text, if there is one. -/
def faultFrom (position : Nat) (bytes : Bytes) : Option Fault :=
  match bytes with
  | [] => none
  | first :: rest =>
    match piece first rest with
    | .character length => faultFrom (position + length) (rest.drop (length - 1))
    | .invalid length => some ⟨position, some length⟩
    | .incomplete _ => some ⟨position, none⟩
termination_by bytes.length

def decode (bytes : Bytes) : Except Fault String :=
  if valid : (ByteArray.mk bytes.toArray).IsValidUTF8 then
    .ok (String.fromUTF8 _ valid)
  else
    .error ((faultFrom 0 bytes).getD ⟨0, none⟩)

@[simp] theorem decode_ofString (text : String) : decode (Bytes.ofString text) = .ok text := by
  have same : ByteArray.mk (Bytes.ofString text).toArray = text.toByteArray := by
    simp [Bytes.ofString]
  rw [decode, dif_pos (same ▸ text.isValidUTF8)]
  congr 1

theorem ofString_of_decode {bytes : Bytes} {text : String} (h : decode bytes = .ok text) :
    Bytes.ofString text = bytes := by
  rw [decode] at h
  split at h
  · cases h
    simp [Bytes.ofString, String.fromUTF8]
  · cases h

/-- Read a byte string as text, with one replacement character for each longest run of bytes that
could have begun a character and did not go on as one. -/
def decodeLossy (bytes : Bytes) : List Char :=
  match bytes with
  | [] => []
  | first :: rest =>
    match piece first rest with
    | .character length =>
      let character := (decode (first :: rest.take (length - 1))).toOption.map String.toList
      character.getD ['\uFFFD'] ++ decodeLossy (rest.drop (length - 1))
    | .invalid length => '\uFFFD' :: decodeLossy (rest.drop (length - 1))
    | .incomplete _ => ['\uFFFD']
termination_by bytes.length

end MarketWire.Utf8
