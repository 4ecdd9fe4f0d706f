import MarketWire.Proofs.Payloads

/-! Integers under a declared type with or without a sign.

An integer may stand where a type of the other sign is declared. A type of a fixed width takes the number over, or
refuses it. A type with a length takes over the bytes of the number, as they are without the type, and reads them in its
own way: so a negative number comes back as another one, and so does a number without a sign whose first bit is set.
-/

set_option autoImplicit false

namespace MarketWire

namespace Width

theorem signed_eq_iff {width n : Nat} (positive : 0 < width) (most : n < 256 ^ width) :
    signed width n = n ↔ 2 * n < 256 ^ width := by
  have even : 256 ^ width = 2 * (128 * 256 ^ (width - 1)) := by
    rw [← Nat.mul_assoc, ← Nat.pow_succ', Nat.succ_eq_add_one, Nat.sub_add_cancel positive]
  change Int.bmod n (256 ^ width) = n ↔ _
  generalize 256 ^ width = bound at most even
  subst even
  rw [Int.bmod_def, Int.emod_eq_of_lt (by omega) (by omega)]
  split <;> omega

end Width

namespace Primitive

def number? : Primitive → Option Int
  | .int n => some n.toInt
  | .uint n => some n.toNat
  | _ => none

/-- The bytes of an integer mean the same number to a type. Only types with a length read bytes that were written with
the other sign: a number may not be negative then, and the first bit of a number without a sign may not be set. -/
def KeepsNumber (value : Primitive) (type : DataType) : Prop :=
  match value, type with
  | .int n, .uint => 0 ≤ n.toInt
  | .uint n, .int => 2 * n.toNat < 256 ^ max (Width.ofUnsigned n) 1
  | _, _ => True

theorem keepsNumber_int {n : Int64} {type : DataType} (other : type ≠ .uint) : (int n).KeepsNumber type := by
  cases type <;> first | exact absurd rfl other | trivial

theorem keepsNumber_uint {n : UInt64} {type : DataType} (other : type ≠ .int) : (uint n).KeepsNumber type := by
  cases type <;> first | exact absurd rfl other | trivial

theorem integer_of_fitsSetType {value : Primitive} {n : Int} (integer : value.number? = some n) {type : DataType}
    (fits : value.fitsSetType type) : type.base = .int ∨ type.base = .uint := by
  cases value with
  | int | uint => exact (Bool.or_eq_true_iff.mp fits).imp of_decide_eq_true of_decide_eq_true
  | _ => cases integer

theorem layout_of_integer {type : DataType} (integer : type.base = .int ∨ type.base = .uint) :
    type = type.base ∧ type.setLayout? = some .shortFrame ∨
      (type ≠ .int ∧ type ≠ .uint) ∧ ∃ width, type.setLayout? = some (.fixed width) := by
  revert integer
  cases type <;> simp [DataType.base, DataType.setLayout?]

/-! ## Bytes that are read with the other sign -/

theorem decode_uint_ofNat {width : Nat} (positive : 0 < width) (most : width ≤ 8) (n : Nat) :
    decode .uint (Bytes.ofNat width n) = .ok (.uint (.ofNat (n % 256 ^ width))) := by
  have filled := isEmpty_ofNat positive n
  have read : Read.all (Width.readUnsigned width) (Bytes.ofNat width n) = .ok (.ofNat (n % 256 ^ width)) := by
    refine Read.all_front fun rest => ?_
    unfold Width.readUnsigned
    rw [if_pos most, Program.bind_ok (Width.number_lowest width n rest)]
    rfl
  unfold decode
  simp only [DataType.base, filled, Bytes.length_ofNat, read]
  rfl

theorem decode_int_ofNat {width : Nat} (positive : 0 < width) (most : width ≤ 8) (n : Nat) :
    decode .int (Bytes.ofNat width n) = .ok (.int (.ofInt (Width.signed width (n % 256 ^ width)))) := by
  have filled := isEmpty_ofNat positive n
  have read : Read.all (Width.readSigned width) (Bytes.ofNat width n) =
      .ok (.ofInt (Width.signed width (n % 256 ^ width))) := by
    refine Read.all_front fun rest => ?_
    unfold Width.readSigned
    rw [if_pos most, Program.bind_ok (Width.number_lowest width n rest)]
    rfl
  unfold decode
  simp only [DataType.base, filled, Bytes.length_ofNat, read]
  rfl

theorem toNat_toUInt64_of_nonneg {n : Int64} (natural : 0 ≤ n) : (n.toUInt64.toNat : Int) = n.toInt := by
  have sign : 0 ≤ n.toInt := Int64.le_iff_toInt_le.mp natural
  rw [Int64.toNat_toUInt64_of_le natural]
  exact Int.toNat_of_nonneg sign

theorem decode_uint_payload (n : Int64) :
    ∃ found : UInt64, decode .uint (payload (.int n)) = .ok (.uint found) ∧
      ((found.toNat : Int) = n.toInt ↔ 0 ≤ n.toInt) := by
  have le := Width.ofSigned_le_eight n
  have most : max (Width.ofSigned n) 1 ≤ 8 := by omega
  have lowest := Width.signed_lowest most (Nat.le_max_left _ _)
  refine ⟨_, decode_uint_ofNat (by omega) most n.toUInt64.toNat, ?_⟩
  generalize max (Width.ofSigned n) 1 = width at most lowest
  have bound : 256 ^ width ≤ 2 ^ 64 := Nat.pow_le_pow_right (n := 256) (by decide) most
  have small : n.toUInt64.toNat % 256 ^ width < 256 ^ width := Nat.mod_lt _ (Nat.pow_pos (by decide))
  have same : (UInt64.ofNat (n.toUInt64.toNat % 256 ^ width)).toNat = n.toUInt64.toNat % 256 ^ width :=
    UInt64.toNat_ofNat_of_lt' (Nat.lt_of_lt_of_le small bound)
  rw [same]
  constructor
  · intro kept
    rw [← kept]
    exact Int.natCast_nonneg _
  · -- In two's complement the bytes spell the number itself or one that is negative.
    intro natural
    change Int.bmod _ (256 ^ width) = _ at lowest
    rw [Int.bmod_def, Int.emod_eq_of_lt (Int.natCast_nonneg _) (by exact_mod_cast small)] at lowest
    split at lowest <;> omega

theorem decode_int_payload (n : UInt64) :
    ∃ found : Int64, decode .int (payload (.uint n)) = .ok (.int found) ∧
      (found.toInt = n.toNat ↔ 2 * n.toNat < 256 ^ max (Width.ofUnsigned n) 1) := by
  have le := Width.ofUnsigned_le_eight n
  have most : max (Width.ofUnsigned n) 1 ≤ 8 := by omega
  have small := Width.lt_of_ofUnsigned_le (Nat.le_max_left (Width.ofUnsigned n) 1)
  have positive : 0 < max (Width.ofUnsigned n) 1 := by omega
  refine ⟨_, decode_int_ofNat positive most n.toNat, ?_⟩
  generalize max (Width.ofUnsigned n) 1 = width at most small positive
  have bound : 256 ^ width ≤ 2 ^ 64 := Nat.pow_le_pow_right (n := 256) (by decide) most
  have above : 0 < 256 ^ width := Nat.pow_pos (by decide)
  have least : -(((256 ^ width : Nat) : Int) / 2) ≤ Width.signed width n.toNat := Int.le_bmod above
  have greatest : Width.signed width n.toNat < (((256 ^ width : Nat) : Int) + 1) / 2 := Int.bmod_lt above
  rw [Nat.mod_eq_of_lt small, Int64.toInt_ofInt_of_le (by omega) (by omega)]
  exact Width.signed_eq_iff positive small

/-! ## Types of the other sign -/

section
variable {type : DataType}

theorem readSet_of_fixed {value taken : Primitive} {width : Nat} (layout : type.setLayout? = some (.fixed width))
    (integer : taken.isPlain) (filled : taken.reread = taken) (native : taken.dataType = type.base)
    (form : value.fixedForm width = taken.fixedForm width) (fits : taken.FitsFixed type width) (rest : Bytes) :
    readSet type (value.setForm type ++ rest) = .ok taken rest := by
  have same : value.setForm type = taken.setForm type := by
    unfold setForm
    rw [layout]
    exact form
  have fitsSet : taken.FitsSet type := by
    unfold FitsSet
    rw [layout]
    exact fits
  rw [same, readSet_setForm integer native fitsSet, filled]

theorem readSet_crossed_int {n : Int64} (base : type.base = .uint) (fits : (int n).FitsSet type) :
    ∃ found : UInt64, (∀ rest, readSet type ((int n).setForm type ++ rest) = .ok (.uint found) rest) ∧
      ((found.toNat : Int) = n.toInt ↔ (int n).KeepsNumber type) := by
  rcases layout_of_integer (.inr base) with ⟨same, layout⟩ | ⟨⟨-, other⟩, width, layout⟩
  · rw [base] at same
    subst same
    obtain ⟨found, decoded, kept⟩ := decode_uint_payload n
    exact ⟨found, readSet_framed_of_decode (by simp [layout]) fits decoded, kept⟩
  · have told : (int n).FitsFixed type width := by
      unfold FitsSet at fits
      rwa [layout] at fits
    unfold FitsFixed at told
    rw [base] at told
    have fixed : (uint n.toUInt64).FitsFixed type width := by
      unfold FitsFixed
      rw [base]
      exact told.2
    refine ⟨n.toUInt64, readSet_of_fixed layout rfl rfl base.symm rfl fixed, ?_⟩
    exact iff_of_true (toNat_toUInt64_of_nonneg told.1) (keepsNumber_int other)

theorem readSet_crossed_uint {n : UInt64} (base : type.base = .int) (fits : (uint n).FitsSet type) :
    ∃ found : Int64, (∀ rest, readSet type ((uint n).setForm type ++ rest) = .ok (.int found) rest) ∧
      (found.toInt = n.toNat ↔ (uint n).KeepsNumber type) := by
  rcases layout_of_integer (.inl base) with ⟨same, layout⟩ | ⟨⟨other, -⟩, width, layout⟩
  · rw [base] at same
    subst same
    obtain ⟨found, decoded, kept⟩ := decode_int_payload n
    exact ⟨found, readSet_framed_of_decode (by simp [layout]) fits decoded, kept⟩
  · have told : (uint n).FitsFixed type width := by
      unfold FitsSet at fits
      rwa [layout] at fits
    unfold FitsFixed at told
    rw [base] at told
    have fixed : (int (.ofNat n.toNat)).FitsFixed type width := by
      unfold FitsFixed
      rw [base]
      exact told.2
    have form : (uint n).fixedForm width = (int (.ofNat n.toNat)).fixedForm width := by
      have same : (Int64.ofNat n.toNat).toUInt64 = n := UInt64.ofNat_toNat
      exact congrArg (fun m : UInt64 => Bytes.ofNat width m.toNat) same.symm
    refine ⟨.ofNat n.toNat, readSet_of_fixed layout rfl rfl base.symm form fixed, ?_⟩
    exact iff_of_true (Int64.toInt_ofNat_of_lt told.1) (keepsNumber_uint other)

end

/-- An integer that is written under a type of integers is read as one, of whichever sign, and nothing behind it is
read. It is the same number exactly if the type keeps it. -/
theorem readSet_keeps_iff {value : Primitive} {n : Int} (integer : value.number? = some n) {type : DataType}
    (fits : value.fitsSetType type) {output after : Output} (written : value.encodeSet type output = .ok () after) :
    ∃ added, after.toList = output.toList ++ added ∧
      ∃ found, (∀ rest, readSet type (added ++ rest) = .ok found rest) ∧ found.number?.isSome ∧
        (found.number? = some n ↔ value.KeepsNumber type) := by
  obtain ⟨-, added, bytes, rfl, fitsSet⟩ := (encodeSet_extends value type).of_ok written
  refine ⟨_, bytes, ?_⟩
  -- Under a type of its own sign an integer comes back as it is.
  cases value with
  | int m =>
    cases integer
    rcases integer_of_fitsSetType rfl fits with base | base
    · refine ⟨.int m, readSet_setForm rfl base.symm fitsSet, rfl, iff_of_true rfl (keepsNumber_int ?_)⟩
      rintro rfl
      cases base
    · obtain ⟨found, reads, kept⟩ := readSet_crossed_int base fitsSet
      exact ⟨.uint found, reads, rfl, Option.some_inj.trans kept⟩
  | uint m =>
    cases integer
    rcases integer_of_fitsSetType rfl fits with base | base
    · obtain ⟨found, reads, kept⟩ := readSet_crossed_uint base fitsSet
      exact ⟨.int found, reads, rfl, Option.some_inj.trans kept⟩
    · refine ⟨.uint m, readSet_setForm rfl base.symm fitsSet, rfl, iff_of_true rfl (keepsNumber_uint ?_)⟩
      rintro rfl
      cases base
  | _ => cases integer

/-- The first bit of 200 is set in one byte, so 200 is not kept under the signed type with a length. -/
theorem readSet_keeps_iff_byte :
    (uint 200).fitsSetType .int ∧ ∃ after, (uint 200).encodeSet .int (.empty 2) = .ok () after ∧
      ∃ found, readSet .int after.toList = .ok found [] ∧ found.number?.isSome ∧ found.number? ≠ some 200 := by
  have fits : (uint 200).fitsSetType .int := by decide
  have ran : Program.succeeds ((uint 200).encodeSet .int) (.empty 2) := by decide +kernel
  obtain ⟨_, after, written⟩ := Program.exists_of_succeeds ran
  obtain ⟨added, bytes, found, reads, integer, kept⟩ := readSet_keeps_iff (n := 200) rfl fits written
  rw [Output.toList_empty, List.nil_append] at bytes
  have alone := reads []
  rw [List.append_nil, ← bytes] at alone
  have lost : ¬ 2 * (200 : UInt64).toNat < 256 ^ max (Width.ofUnsigned 200) 1 := by decide
  exact ⟨fits, after, written, found, alone, integer, mt kept.mp lost⟩

/-- Not every integer comes back as the same number: -5 comes back as 251 under the type without a sign. -/
theorem numbers_change : ¬ ∀ (value : Primitive) (n : Int) (type : DataType) (output after : Output),
    value.number? = some n → value.fitsSetType type → value.encodeSet type output = .ok () after →
      ∃ added, after.toList = output.toList ++ added ∧
        ∃ found, readSet type added = .ok found [] ∧ found.number? = some n := by
  intro all
  have ran : Program.succeeds ((int (-5)).encodeSet .uint) (.empty 2) := by decide +kernel
  obtain ⟨_, after, written⟩ := Program.exists_of_succeeds ran
  obtain ⟨-, form, bytes, rfl, fitsSet⟩ := (encodeSet_extends _ _).of_ok written
  obtain ⟨added, same, found, reads, kept⟩ := all (int (-5)) (-5) .uint _ after rfl rfl written
  obtain rfl := List.append_cancel_left (bytes.symm.trans same)
  obtain ⟨natural, reads', -⟩ := readSet_crossed_int rfl fitsSet
  have alone := reads' []
  rw [List.append_nil, reads] at alone
  cases alone
  exact absurd (Option.some.inj kept) (by omega)

end Primitive

end MarketWire
