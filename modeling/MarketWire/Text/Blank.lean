import MarketWire.Bytes

/-! Blank characters and blank bytes.

Text is trimmed by the white space of Unicode; definition files are split by the five blank bytes
of ASCII.
-/

set_option autoImplicit false

namespace MarketWire.Blank

/-- The characters with the property White_Space. -/
def isBlank (c : Char) : Bool :=
  (9 ≤ c.val && c.val ≤ 13) || c.val == 0x20 || c.val == 0x85 || c.val == 0xA0 || c.val == 0x1680
    || (0x2000 ≤ c.val && c.val ≤ 0x200A) || c.val == 0x2028 || c.val == 0x2029 || c.val == 0x202F
    || c.val == 0x205F || c.val == 0x3000

/-- Tab, line feed, form feed, carriage return and space. -/
def isBlankByte (byte : UInt8) : Bool :=
  byte == 9 || byte == 10 || byte == 12 || byte == 13 || byte == 32

section
variable {α : Type} {test : α → Bool} {run rest : List α} (ends : ∀ a ∈ rest.head?, test a = false)
include ends

theorem dropWhile_of_head? : rest.dropWhile test = rest := by
  cases rest with
  | nil => rfl
  | cons a rest => exact List.dropWhile_cons_of_neg (by simp [ends a rfl])

/-- A run of elements that satisfy a test ends where one follows that does not. -/
theorem dropWhile_run (all : ∀ a ∈ run, test a) : (run ++ rest).dropWhile test = rest := by
  rw [List.dropWhile_append_of_pos all, dropWhile_of_head? ends]

theorem takeWhile_run (all : ∀ a ∈ run, test a) : (run ++ rest).takeWhile test = run := by
  have stops : rest.takeWhile test = [] := by
    cases rest with
    | nil => rfl
    | cons a rest => exact List.takeWhile_cons_of_neg (by simp [ends a rfl])
  rw [List.takeWhile_append_of_pos all, stops, List.append_nil]

end

/-- Drop the elements at both ends that satisfy a test. -/
def trimBoth {α : Type} (test : α → Bool) (items : List α) : List α :=
  ((items.dropWhile test).reverse.dropWhile test).reverse

def trim (text : List Char) : List Char := trimBoth isBlank text

def trimStart (bytes : Bytes) : Bytes := bytes.dropWhile isBlankByte

def trimEnd (bytes : Bytes) : Bytes := (bytes.reverse.dropWhile isBlankByte).reverse

end MarketWire.Blank
