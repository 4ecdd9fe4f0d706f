import MarketWire.Proofs.Calendars
import MarketWire.Proofs.Primitives

/-! What comes back of a value of any kind.

A payload gives a value back as it was, but for four losses: a blank real has no hint left, a non-finite
one no mantissa, no bytes are a blank, and a time that is not valid may not keep its components apart. A
fixed width keeps what it has room for.
-/

set_option autoImplicit false

namespace MarketWire

namespace RealHint

theorem ofCode?_code {hint : RealHint} (known : (ofCode? hint.code).isSome) :
    ofCode? hint.code = some hint := by
  unfold ofCode? at known ⊢
  split at known
  · next meaning => rw [if_pos meaning]
  · cases known

theorem code_bits {hint : RealHint} (known : (ofCode? hint.code).isSome)
    (finite : hint.isNonFinite = false) :
    hint.code &&& Real.hintMask = hint.code ∧ (hint.code &&& Real.blankBit != 0) = false := by
  have each : ∀ n < 31, UInt8.ofNat n &&& Real.hintMask = UInt8.ofNat n ∧
      (UInt8.ofNat n &&& Real.blankBit != 0) = false := by decide
  have small : hint.code.toNat < 31 := by
    unfold isNonFinite at finite
    unfold ofCode? at known
    split at known
    · next meaning =>
      rw [finite, Bool.false_and, Bool.or_false, decide_eq_true_eq] at meaning
      exact Nat.lt_succ_of_le (UInt8.le_iff_toNat_le.mp meaning)
    · cases known
  have bits := each hint.code.toNat small
  rwa [UInt8.ofNat_toNat] at bits

end RealHint

namespace Real

def kept (real : Real) : Real := if real.hint.isNonFinite then ofHint 0 real.hint else real

theorem kept_eq {real : Real} (filled : real.blank = false) :
    real.kept = { real with value := if real.hint.isNonFinite then 0 else real.value } := by
  obtain ⟨number, hint, _⟩ := real
  cases filled
  unfold kept ofHint
  split <;> simp [*]

theorem kept_eq_self {real : Real} (filled : real.blank = false) (alone : real.hint.isNonFinite → real.value = 0) :
    real.kept = real := by
  rw [kept_eq filled]
  split
  case isTrue infinite => rw [← alone infinite]
  case isFalse => rfl

theorem decode_payload {real : Real} (filled : real.blank = false)
    (known : (RealHint.ofCode? real.hint.code).isSome) : decode real.payload = .ok real.kept := by
  have hint := RealHint.ofCode?_code known
  unfold payload kept
  rw [if_neg (by simp [filled])]
  by_cases whole : real.hint.isNonFinite
  · rw [if_pos whole, if_pos whole]
    unfold decode
    dsimp only
    rw [hint, Option.filter_some_pos whole]
  · rw [if_neg whole, if_neg whole]
    obtain ⟨mask, bit⟩ := RealHint.code_bits known (by simpa using whole)
    have mantissa := Primitive.all_readSigned real.value
    -- A mantissa takes a byte at least, so the hint does not stand alone.
    cases digits : Bytes.ofNat (max (Width.ofSigned real.value) 1) real.value.toUInt64.toNat with
    | nil =>
      have filled := Primitive.isEmpty_ofNat
        (show 0 < max (Width.ofSigned real.value) 1 by omega) real.value.toUInt64.toNat
      rw [digits] at filled
      cases filled
    | cons first rest =>
      have width : max (Width.ofSigned real.value) 1 = (first :: rest).length := by
        rw [← digits, Bytes.length_ofNat]
      rw [digits, width] at mantissa
      unfold decode
      dsimp only
      rw [mask, bit, hint]
      dsimp only
      rw [mantissa, ← filled]
      rfl

theorem isEmpty_payload {real : Real} (filled : real.blank = false) :
    real.payload.isEmpty = false := by
  unfold payload
  rw [if_neg (by simp [filled])]
  split <;> rfl

end Real

theorem DataType.framed_of_isPrimitive {type : DataType} (primitive : type.isPrimitive) :
    type.base = type ∧ ∀ width, type.setLayout? ≠ some (.fixed width) := by
  revert primitive
  cases type <;> simp [isPrimitive, base, setLayout?] <;> decide

namespace Primitive

/-! ## Payloads -/

theorem reread_bytes {type : ByteType} {content : Bytes} (nonempty : content ≠ []) :
    reread (.bytes type content) = .bytes type content := by
  cases content with
  | nil => exact absurd rfl nonempty
  | cons => rfl

/-- What a payload tells: encoded bytes may be anything, and not every hint has a meaning. -/
def isProper : Primitive → Bool
  | .encoded .. => false
  | .real value => (RealHint.ofCode? value.hint.code).isSome
  | _ => true

def returned : Primitive → Primitive
  | .real value => if value.blank then .blank .real else .real value.kept
  | .time value => .time (value.kept value.wireLength)
  | .dateTime value => .dateTime ⟨value.date, value.time.kept value.time.wireLength⟩
  | value => value.reread

theorem decode_payload_proper {value : Primitive} {type : DataType} (proper : value.isProper)
    (primitive : value.dataType.isPrimitive) (native : value.dataType = type.base) :
    decode type value.payload = .ok value.returned := by
  by_cases plain : value.isPlain
  · rw [decode_payload plain native]
    cases value <;> first | rfl | cases plain
  unfold decode
  rw [← native]
  dsimp only
  rw [if_neg (by simp [primitive])]
  cases value with
  | blank own => rfl
  | float bits =>
    change Primitive.float <$> Read.all Read.uint32 (Bytes.ofNat 4 bits.toNat) = _
    rw [Read.all_front (Read.uint32_ofNat bits)]
    rfl
  | double bits =>
    change Primitive.double <$> Read.all Read.uint64 (Bytes.ofNat 8 bits.toNat) = _
    rw [Read.all_front (Read.uint64_ofNat bits)]
    rfl
  | real value =>
    change (if value.payload.isEmpty then Except.ok (.blank .real) else Primitive.real <$> _) =
      Except.ok (if value.blank then .blank .real else .real value.kept)
    cases blank : value.blank with
    | true =>
      have none : value.payload = [] := if_pos blank
      rw [none]
      rfl
    | false =>
      rw [Real.isEmpty_payload blank]
      change Primitive.real <$> Real.decode value.payload = _
      rw [Real.decode_payload blank proper]
      rfl
  | date value =>
    change Primitive.date <$> Date.decode value.bytes = _
    rw [value.decode_bytes]
    rfl
  | time value =>
    change Primitive.time <$> Time.decode (value.bytes value.wireLength) = _
    rw [value.decode_bytes value.wireLength_mem]
    rfl
  | dateTime value =>
    change Primitive.dateTime <$> DateTime.decode (value.date.bytes ++ _) = _
    rw [value.decode_bytes value.time.wireLength_mem]
    rfl
  | encoded => cases proper
  | _ => exact absurd rfl plain

/-! ## Set definitions -/

def returnedIn (width : Nat) : Primitive → Primitive
  | .time value => .time (value.kept width)
  | .dateTime value => .dateTime ⟨value.date, value.time.kept (width - Date.wireLength)⟩
  | value => value.reread

theorem width_of_layout {type : DataType} {width : Nat}
    (layout : type.setLayout? = some (.fixed width)) :
    type.base ≠ .real ∧ (type.base = .float → width = 4) ∧ (type.base = .double → width = 8) ∧
      (type.base = .date → width = 4) ∧ (type.base = .time → width ∈ Time.lengths) ∧
      (type.base = .dateTime → Date.wireLength ≤ width ∧ width - Date.wireLength ∈ Time.lengths) := by
  revert layout
  cases type <;> simp [DataType.setLayout?, DataType.base, Time.lengths, Date.wireLength] <;> omega

theorem encodeFixed_filled (value : Primitive) (type : DataType) (width : Nat) :
    Write.Extends (encodeFixed value type width) fun _ _ _ => ∀ own, value ≠ .blank own := by
  cases value with
  | blank own =>
    unfold encodeFixed
    refine ((Write.ensure_emits width).then_extends fun _ =>
      (?_ : Write.Extends _ fun _ _ _ => False)).mono ?_
    · cases type.base <;> exact Write.Extends.throw _
    · rintro _ _ _ ⟨_, ⟨⟩, _⟩
  | _ => exact (encodeFixed_extends _ type width).mono fun _ _ _ _ _ => nofun

section
variable {value : Primitive} {type : DataType} {width : Nat}

theorem length_fixedForm (layout : type.setLayout? = some (.fixed width)) (proper : value.isProper)
    (notBlank : ∀ own, value ≠ .blank own) (other : ¬ value.isPlain) (native : value.dataType = type.base) :
    (value.fixedForm width).length = width := by
  obtain ⟨noReal, float, double, date, time, dateTime⟩ := width_of_layout layout
  cases value with
  | blank own => exact absurd rfl (notBlank own)
  | float bits => exact (Bytes.length_ofNat _ _).trans (float native.symm).symm
  | double bits => exact (Bytes.length_ofNat _ _).trans (double native.symm).symm
  | real value => exact absurd native.symm noReal
  | date value => exact value.length_bytes.trans (date native.symm).symm
  | time value => exact value.length_bytes (time native.symm)
  | dateTime value =>
    obtain ⟨enough, known⟩ := dateTime native.symm
    change (value.date.bytes ++ value.time.bytes (width - Date.wireLength)).length = width
    rw [List.length_append, value.date.length_bytes, value.time.length_bytes known]
    omega
  | encoded => cases proper
  | _ => exact absurd rfl other

/-- The bytes of a fixed width tell their value, with as much of a time as they have room for. -/
theorem decodeFixed_fixedForm (layout : type.setLayout? = some (.fixed width))
    (proper : value.isProper) (notBlank : ∀ own, value ≠ .blank own) (other : ¬ value.isPlain)
    (native : value.dataType = type.base) :
    decodeFixed type (value.fixedForm width) = .ok (value.returnedIn width) := by
  obtain ⟨noReal, -, -, -, time, dateTime⟩ := width_of_layout layout
  unfold decodeFixed
  cases value with
  | blank own => exact absurd rfl (notBlank own)
  | float bits =>
    rw [show type.base = .float from native.symm]
    exact congrArg (Primitive.float <$> ·) (Read.all_front (Read.uint32_ofNat bits))
  | double bits =>
    rw [show type.base = .double from native.symm]
    exact congrArg (Primitive.double <$> ·) (Read.all_front (Read.uint64_ofNat bits))
  | real value => exact absurd native.symm noReal
  | date value =>
    rw [show type.base = .date from native.symm]
    exact congrArg (Primitive.date <$> ·) value.decode_bytes
  | time value =>
    have base : type.base = .time := native.symm
    rw [base]
    exact congrArg (Primitive.time <$> ·) (value.decode_bytes (time base))
  | dateTime value =>
    have base : type.base = .dateTime := native.symm
    rw [base]
    exact congrArg (Primitive.dateTime <$> ·) (value.decode_bytes (dateTime base).2)
  | encoded => cases proper
  | _ => exact absurd rfl other

/-- A value of any kind that is there comes back from a fixed width. -/
theorem readSet_fixed (layout : type.setLayout? = some (.fixed width)) (proper : value.isProper)
    (notBlank : ∀ own, value ≠ .blank own) (native : value.dataType = type.base)
    (fits : value.FitsFixed type width) (rest : Bytes) :
    readSet type (value.setForm type ++ rest) = .ok (value.returnedIn width) rest := by
  by_cases plain : value.isPlain
  · have fitsSet : value.FitsSet type := by
      unfold FitsSet
      rw [layout]
      exact fits
    rw [readSet_setForm plain native fitsSet]
    cases value <;> first | rfl | cases plain
  · unfold readSet setForm
    rw [layout]
    exact Read.ofExcept_ok
      (Read.bytes_append (length_fixedForm layout proper notBlank plain native) rest)
      (decodeFixed_fixedForm layout proper notBlank plain native)

theorem readSet_framed_of_decode {found : Primitive} (layout : ∀ width, type.setLayout? ≠ some (.fixed width))
    (fits : value.FitsSet type) (decoded : decode type value.payload = .ok found) (rest : Bytes) :
    readSet type (value.setForm type ++ rest) = .ok found rest := by
  unfold FitsSet at fits
  unfold readSet setForm
  cases form : type.setLayout? with
  | none =>
    rw [form] at fits
    exact fits.elim
  | some form' =>
    rw [form] at fits
    cases form' with
    | fixed width => exact absurd form (layout width)
    | shortFrame => exact Read.ofExcept_ok (Read.framed_frame fits rest) decoded
    | longFrame => exact Read.ofExcept_ok (Read.framed_frame fits rest) decoded

theorem readSet_framed
    (layout : ∀ width, type.setLayout? ≠ some (.fixed width)) (proper : value.isProper)
    (primitive : value.dataType.isPrimitive) (native : value.dataType = type.base)
    (fits : value.FitsSet type) (rest : Bytes) :
    readSet type (value.setForm type ++ rest) = .ok value.returned rest :=
  readSet_framed_of_decode layout fits (decode_payload_proper proper primitive native) rest

end

end Primitive

end MarketWire
