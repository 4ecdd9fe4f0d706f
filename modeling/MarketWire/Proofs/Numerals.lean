import MarketWire.DefinitionFile.Fields
import MarketWire.Proofs.Texts

/-! Decimal numerals, as the readers of numbers take them.

The numeral of a number is read back as the number wherever its range includes the number. Its bytes are digits and
perhaps a sign, so that it is a word on a line of a definition file.
-/

set_option autoImplicit false

namespace MarketWire

namespace Integer

/-! ## Digits -/

theorem valueFrom?_digits {digits : List Char} (all : ∀ c ∈ digits, c.isDigit) (n : Nat) :
    valueFrom? n digits = some (Nat.ofDigitChars 10 digits n) := by
  induction digits generalizing n with
  | nil => rfl
  | cons c rest ih =>
    obtain ⟨first, others⟩ := List.forall_mem_cons.mp all
    rw [valueFrom?, digit?, if_pos first, Option.bind_eq_bind, Option.bind_some, ih others, Nat.ofDigitChars_cons,
      Nat.mul_comm]

theorem isDigit_of_mem_repr {n : Nat} {c : Char} (member : c ∈ n.repr.toList) : c.isDigit := by
  rw [Nat.toList_repr] at member
  exact Nat.isDigit_of_mem_toDigits (by decide) (by decide) member

theorem digits?_repr {limit n : Nat} (below : n < limit) : digits? limit n.repr.toList = some n := by
  have value : valueFrom? 0 n.repr.toList = some n := by
    rw [valueFrom?_digits fun c => isDigit_of_mem_repr, Nat.toList_repr,
      Nat.ofDigitChars_toDigits (by decide) (by decide)]
  rw [digits?, if_neg (by simp), valueBelow?_eq _ (Nat.zero_lt_of_lt below), value,
    Option.filter_some, if_pos (by simpa using below)]

theorem head_repr_ne {n : Nat} {mark : Char} (sign : mark.isDigit = false) (rest : List Char) :
    n.repr.toList ≠ mark :: rest := by
  intro same
  have digit := isDigit_of_mem_repr (same ▸ List.mem_cons_self : mark ∈ n.repr.toList)
  rw [sign] at digit
  cases digit

theorem below?_repr {limit n : Nat} (below : n < limit) : below? limit n.repr.toList = some n := by
  unfold below?
  split
  case h_1 rest same => exact absurd same (head_repr_ne (by decide) rest)
  case h_2 => exact digits?_repr below

/-! ## Numbers with a sign -/

theorem toList_negSucc (n : Nat) : (toString (Int.negSucc n)).toList = '-' :: (n + 1).repr.toList :=
  (String.toList_append (s := "-")).trans rfl

theorem ofBits?_toString {bits : Nat} {i : Int} (least : -(Nat.pow 2 (bits - 1) : Int) ≤ i)
    (most : i < Nat.pow 2 (bits - 1)) : ofBits? bits (toString i).toList = some i := by
  cases i with
  | ofNat n =>
    have below : n < Nat.pow 2 (bits - 1) := Int.ofNat_lt.mp most
    change ofBits? bits n.repr.toList = _
    unfold ofBits?
    dsimp only
    split
    case h_1 rest same => exact absurd same (head_repr_ne (by decide) rest)
    case h_2 =>
      rw [below?_repr below]
      rfl
  | negSucc n =>
    have inside : n + 1 < Nat.pow 2 (bits - 1) + 1 := by omega
    rw [toList_negSucc, ofBits?, digits?_repr inside]
    rfl

end Integer

namespace Scan

theorem fid?_toString (fid : Int16) : fid? (toString fid.toInt) = some fid := by
  have least : -(Nat.pow 2 (16 - 1) : Int) ≤ fid.toInt := fid.le_toInt
  have most : fid.toInt < Nat.pow 2 (16 - 1) := fid.toInt_lt
  rw [fid?, Integer.ofBits?_toString least most, Option.map_some, Int16.ofInt_toInt]

/-! ## Bytes -/

theorem toString_ne_empty (i : Int) : toString i ≠ "" := by
  intro empty
  have noDigits : (toString i).toList = [] := String.toList_eq_nil_iff.mpr empty
  cases i with
  | ofNat n => exact Nat.toDigits_ne_nil (Nat.toList_repr.symm.trans noDigits)
  | negSucc n =>
    rw [Integer.toList_negSucc] at noDigits
    cases noDigits

theorem mem_toString {i : Int} {c : Char} (member : c ∈ (toString i).toList) : c.isDigit ∨ c = '-' := by
  cases i with
  | ofNat n => exact .inl (Integer.isDigit_of_mem_repr member)
  | negSucc n =>
    rw [Integer.toList_negSucc] at member
    rcases List.mem_cons.mp member with sign | digit
    · exact .inr sign
    · exact .inl (Integer.isDigit_of_mem_repr digit)

theorem mem_bytes_toString {i : Int} {byte : UInt8} (member : byte ∈ Bytes.ofString (toString i)) :
    isWordByte byte ∧ byte ≠ Line.commentMark ∧ byte ≠ quote := by
  have digits : ∀ n < 58, 48 ≤ n → ∀ byte ∈ String.utf8EncodeChar (Char.ofNat n),
      isWordByte byte ∧ byte ≠ Line.commentMark ∧ byte ≠ quote := by decide +kernel
  have sign : ∀ byte ∈ String.utf8EncodeChar '-',
      isWordByte byte ∧ byte ≠ Line.commentMark ∧ byte ≠ quote := by decide +kernel
  rw [← String.ofList_toList (s := toString i), Utf8.ofString_eq_flatMap] at member
  obtain ⟨c, inside, member⟩ := List.mem_flatMap.mp member
  rcases mem_toString inside with digit | rfl
  · obtain ⟨least, most⟩ := Char.isDigit_iff_toNat.mp digit
    refine digits c.toNat (Nat.lt_succ_of_le most) least byte ?_
    rwa [Char.ofNat_toNat]
  · exact sign byte member

end Scan

end MarketWire
