/-! Integers in text: a sign that may be missing, then decimal digits. -/

set_option autoImplicit false

namespace MarketWire.Integer

def digit? (c : Char) : Option Nat :=
  if c.isDigit then some (c.toNat - '0'.toNat) else none

/-- The number that digits spell behind a number that is spelled already. -/
def valueFrom? (n : Nat) : List Char → Option Nat
  | [] => some n
  | c :: rest => do valueFrom? (n * 10 + (← digit? c)) rest

/-- The same, as long as it stays below a limit. -/
def valueBelow? (limit n : Nat) : List Char → Option Nat
  | [] => some n
  | c :: rest => do
    let n := n * 10 + (← digit? c)
    if n < limit then valueBelow? limit n rest else none

theorem le_of_valueFrom? {n m : Nat} {text : List Char} (h : valueFrom? n text = some m) : n ≤ m := by
  induction text generalizing n with
  | nil => exact Nat.le_of_eq (Option.some.inj h)
  | cons c rest ih =>
    obtain ⟨digit, _, h⟩ := Option.bind_eq_some_iff.mp h
    have := ih h
    omega

/-- Digits only ever make a number larger, so the limit may be tested at each of them. -/
theorem valueBelow?_eq {limit n : Nat} (text : List Char) (h : n < limit) :
    valueBelow? limit n text = (valueFrom? n text).filter (· < limit) := by
  induction text generalizing n with
  | nil => simp [valueBelow?, valueFrom?, Option.filter, h]
  | cons c rest ih =>
    cases found : digit? c with
    | none => simp [valueBelow?, valueFrom?, found]
    | some digit =>
      simp only [valueBelow?, valueFrom?, found, bind, Option.bind]
      split
      next below => exact ih below
      next above =>
        symm
        rw [Option.filter_eq_none_iff]
        intro m value
        have := le_of_valueFrom? value
        simp only [decide_eq_true_eq]
        omega

/-- The number below a limit that a text of decimal digits spells; no digits spell none. -/
def digits? (limit : Nat) (text : List Char) : Option Nat :=
  if text.isEmpty then none else valueBelow? limit 0 text

/-- A number below a limit, with or without a plus sign. -/
def below? (limit : Nat) (text : List Char) : Option Nat :=
  match text with
  | '+' :: rest => digits? limit rest
  | _ => digits? limit text

/-- A number of so many bits in two's complement, with or without a sign. -/
def ofBits? (bits : Nat) (text : List Char) : Option Int :=
  let limit := Nat.pow 2 (bits - 1)
  match text with
  | '-' :: rest => (digits? (limit + 1) rest).map fun n => -(n : Int)
  | _ => (below? limit text).map fun n => (n : Int)

end MarketWire.Integer
