import Mathlib.Data.List.Basic
import Mathlib.Tactic.Ring
import MarketWire.Calendar.Layout
import MarketWire.Proofs.Numerals

/-! Numerals of a fixed width, and the runs of digits that the readers of dates and times take.

A run ends where no digit follows. Its value and its length are what the readers go by, so a numeral with zeros in front
is read as its number and as so many digits.
-/

set_option autoImplicit false

namespace MarketWire

namespace Decimal

def padded (width n : Nat) : List Char := (padLeft width '0' (toString n)).toList

theorem of_isDigit (holds : Char → Prop) (ten : ∀ n < 58, 48 ≤ n → holds (Char.ofNat n)) {c : Char}
    (digit : c.isDigit) : holds c := by
  obtain ⟨least, most⟩ := Char.isDigit_iff_toNat.mp digit
  have held := ten c.toNat (Nat.lt_succ_of_le most) least
  rwa [Char.ofNat_toNat] at held

theorem padded_eq (width n : Nat) : padded width n = List.replicate (width - n.repr.length) '0' ++ n.repr.toList := by
  rw [padded, padLeft, String.toList_append, String.toList_ofList]
  rfl

theorem toList_padLeft {width n : Nat} {fill : Char} (positive : 0 < width) (large : 10 ^ width ≤ n) :
    (padLeft (width + 1) fill (toString n)).toList = padded (width + 1) n := by
  have long : width + 1 ≤ n.repr.length :=
    Nat.lt_of_not_le fun short => Nat.not_lt_of_le large ((Nat.length_repr_le_iff positive).mp short)
  have full : width + 1 - n.repr.length = 0 := Nat.sub_eq_zero_of_le long
  rw [padded_eq, padLeft, String.toList_append, String.toList_ofList, full]
  change List.replicate (width + 1 - n.repr.length) fill ++ _ = _
  rw [full]
  rfl

theorem isDigit_of_mem_padded {width n : Nat} {c : Char} (member : c ∈ padded width n) : c.isDigit := by
  rw [padded_eq, List.mem_append] at member
  rcases member with zero | digit
  · rw [List.eq_of_mem_replicate zero]
    rfl
  · exact Integer.isDigit_of_mem_repr digit

section
variable {width n : Nat} (positive : 0 < width) (fits : n < 10 ^ width)
include positive fits

theorem length_padded : (padded width n).length = width := by
  have most : n.repr.length ≤ width := (Nat.length_repr_le_iff positive).mpr fits
  rw [padded_eq, List.length_append, List.length_replicate, String.length_toList]
  omega

theorem ofDigitChars_padded (before : Nat) :
    Nat.ofDigitChars 10 (padded width n) before = 10 ^ width * before + n := by
  have alone : Nat.ofDigitChars 10 (padded width n) 0 = n := by
    rw [padded_eq, Nat.ofDigitChars_append, Nat.ofDigitChars_replicate_zero, Nat.mul_zero, Nat.toList_repr,
      Nat.ofDigitChars_toDigits (by decide) (by decide)]
  rw [Nat.ofDigitChars_eq_ofDigitChars_zero, length_padded positive fits, alone]

theorem padded_ne_nil : padded width n ≠ [] := by
  apply List.ne_nil_of_length_pos
  rw [length_padded positive fits]
  exact positive

theorem forall_head?_padded {holds : Char → Prop} (all : ∀ c, c.isDigit → holds c) (rest : List Char) :
    ∀ c ∈ (padded width n ++ rest).head?, holds c := by
  rw [List.head?_append_of_ne_nil _ (padded_ne_nil positive fits)]
  exact fun c found => all c (isDigit_of_mem_padded (List.mem_of_mem_head? found))

end

end Decimal

namespace Layout

def EndsRun (rest : List Char) : Prop := ∀ c ∈ rest.head?, c.isDigit = false

theorem number_digits {digits rest : List Char} (all : ∀ c ∈ digits, c.isDigit) (ends : EndsRun rest) :
    number (digits ++ rest) = (Nat.ofDigitChars 10 digits 0, digits.length, rest) := by
  have value : digits.foldl (fun n c => n * 10 + (c.toNat - '0'.toNat)) 0 = Nat.ofDigitChars 10 digits 0 := by
    rw [Nat.ofDigitChars]
    congr 1
    funext n c
    rw [Nat.mul_comm]
  unfold number
  dsimp only
  rw [Blank.takeWhile_run ends all, Blank.dropWhile_run ends all, value]

theorem number_eq {digits : List Char} (all : ∀ c ∈ digits, c.isDigit) :
    number digits = (Nat.ofDigitChars 10 digits 0, digits.length, []) := by
  have read : number (digits ++ []) = _ := number_digits all nofun
  rwa [List.append_nil] at read

theorem number_padded {width n : Nat} {rest : List Char} (positive : 0 < width) (fits : n < 10 ^ width)
    (ends : EndsRun rest) : number (Decimal.padded width n ++ rest) = (n, width, rest) := by
  rw [number_digits (fun _ => Decimal.isDigit_of_mem_padded) ends, Decimal.ofDigitChars_padded positive fits,
    Decimal.length_padded positive fits, Nat.mul_zero, Nat.zero_add]

theorem numberOf_padded {lengths : List Nat} {width n : Nat} {rest : List Char} (known : width ∈ lengths)
    (positive : 0 < width) (fits : n < 10 ^ width) (ends : EndsRun rest) :
    numberOf lengths (Decimal.padded width n ++ rest) = some (n, rest) := by
  unfold numberOf
  rw [number_padded positive fits ends]
  exact if_pos (List.contains_iff_mem.mpr known)

theorem numberOf_padded_eq {lengths : List Nat} {width n : Nat} (known : width ∈ lengths) (positive : 0 < width)
    (fits : n < 10 ^ width) : numberOf lengths (Decimal.padded width n) = some (n, []) := by
  have read : numberOf lengths (Decimal.padded width n ++ []) = _ := numberOf_padded known positive fits nofun
  rwa [List.append_nil] at read

end Layout

end MarketWire
