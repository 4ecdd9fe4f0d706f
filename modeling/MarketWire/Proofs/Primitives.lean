import MarketWire.Primitive
import MarketWire.Proofs.Widths

/-! Primitive values, written and read back.

The payload of a value is what stands behind its length; its form under a set definition is fixed in
width or a frame around the payload. A value that fits a declared type of its own kind comes back
from its form, except that no bytes come back as a blank.
-/

set_option autoImplicit false

namespace MarketWire

namespace Real

def payload (real : Real) : Bytes :=
  if real.blank then []
  else if real.hint.isNonFinite then [real.hint.code]
  else real.hint.code :: Bytes.ofNat (max (Width.ofSigned real.value) 1) real.value.toUInt64.toNat

theorem encode_emits (real : Real) : Write.Emits real.encode real.payload := by
  unfold encode payload
  by_cases blank : real.blank
  · rw [if_pos blank, if_pos blank]
    exact Write.Emits.pure ()
  · rw [if_neg blank, if_neg blank]
    by_cases whole : real.hint.isNonFinite
    · rw [if_pos whole, if_pos whole]
      exact Write.byte_emits _
    · rw [if_neg whole, if_neg whole]
      exact (Write.ensure_emits _).bind fun _ =>
        (Write.byte_emits _).bind fun _ => Width.writeSigned_emits _ _

end Real

namespace Primitive

def payload : Primitive → Bytes
  | .blank _ => []
  | .int n => Bytes.ofNat (max (Width.ofSigned n) 1) n.toUInt64.toNat
  | .uint n => Bytes.ofNat (max (Width.ofUnsigned n) 1) n.toNat
  | .enum n => Bytes.ofNat (max (Width.ofUnsigned n.toUInt64) 1) n.toUInt64.toNat
  | .float bits => Bytes.ofNat 4 bits.toNat
  | .double bits => Bytes.ofNat 8 bits.toNat
  | .real value => value.payload
  | .date value => value.bytes
  | .time value => value.bytes value.wireLength
  | .dateTime value => value.date.bytes ++ value.time.bytes value.time.wireLength
  | .bytes _ content => content
  | .encoded _ payload => payload

theorem encode_emits (value : Primitive) : Write.Emits value.encode value.payload := by
  cases value with
  | blank type => exact Write.Emits.pure ()
  | int n => exact Width.writeSigned_emits _ _
  | uint n => exact Width.writeUnsigned_emits _ _
  | enum n => exact Width.writeUnsigned_emits _ _
  | float bits => exact Write.number_emits _ _
  | double bits => exact Write.number_emits _ _
  | real value => exact value.encode_emits
  | date value => exact Write.bytes_emits _
  | time value => exact Write.bytes_emits _
  | dateTime value => exact Write.bytes_emits _
  | bytes type content => exact Write.bytes_emits _
  | encoded type payload => exact Write.bytes_emits _

def fixedForm (value : Primitive) (width : Nat) : Bytes :=
  match value with
  | .int n => Bytes.ofNat width n.toUInt64.toNat
  | .uint n => Bytes.ofNat width n.toNat
  | .float bits => Bytes.ofNat 4 bits.toNat
  | .double bits => Bytes.ofNat 8 bits.toNat
  | .date value => value.bytes
  | .time value => value.bytes width
  | .dateTime both => both.date.bytes ++ both.time.bytes (width - Date.wireLength)
  | _ => []

def FitsFixed (value : Primitive) (type : DataType) (width : Nat) : Prop :=
  match type.base, value with
  | .int, .int n => Width.ofSigned n ≤ width
  | .int, .uint n => n.toNat < Nat.pow 2 63 ∧ Width.ofSigned (.ofNat n.toNat) ≤ width
  | .uint, .uint n => Width.ofUnsigned n ≤ width
  | .uint, .int n => 0 ≤ n ∧ Width.ofUnsigned n.toUInt64 ≤ width
  | base, value => value.dataType = base

def setForm (type : DataType) (value : Primitive) : Bytes :=
  match type.setLayout? with
  | none => []
  | some (.fixed width) => value.fixedForm width
  | some .shortFrame => LengthForm.byte.frame value.payload
  | some .longFrame => LengthForm.bits16.frame value.payload

def FitsSet (value : Primitive) (type : DataType) : Prop :=
  match type.setLayout? with
  | none => False
  | some (.fixed width) => value.FitsFixed type width
  | some .shortFrame => value.payload.length ≤ LengthForm.byte.max
  | some .longFrame => value.payload.length ≤ LengthForm.bits16.max

theorem writeFixedSigned_extends (value : Primitive) {type : DataType} (base : type.base = .int)
    (width : Nat) :
    Write.Extends (writeFixedSigned value type width) fun _ _ added =>
      added = value.fixedForm width ∧ value.FitsFixed type width := by
  unfold FitsFixed
  rw [base]
  cases value with
  | int n =>
    refine Write.Extends.ite (fun fits => ?_) fun _ => Write.Extends.throw _
    exact (Width.writeSigned_emits _ _).mono fun _ _ _ known => ⟨known, fits⟩
  | uint n =>
    unfold writeFixedSigned
    by_cases small : n.toNat < Nat.pow 2 63
    · simp only [if_pos small]
      refine Write.Extends.ite (fun fits => ?_) fun _ => Write.Extends.throw _
      have same : (Int64.ofNat n.toNat).toUInt64 = n := UInt64.ofNat_toNat
      refine (Width.writeSigned_emits _ _).mono fun _ _ _ known => ⟨?_, small, fits⟩
      rw [known, same]
      rfl
    · simp only [if_neg small]
      exact Write.Extends.throw _
  | _ => exact Write.Extends.throw _

theorem writeFixedUnsigned_extends (value : Primitive) {type : DataType} (base : type.base = .uint)
    (width : Nat) :
    Write.Extends (writeFixedUnsigned value type width) fun _ _ added =>
      added = value.fixedForm width ∧ value.FitsFixed type width := by
  unfold FitsFixed
  rw [base]
  cases value with
  | uint n =>
    refine Write.Extends.ite (fun fits => ?_) fun _ => Write.Extends.throw _
    exact (Width.writeUnsigned_emits _ _).mono fun _ _ _ known => ⟨known, fits⟩
  | int n =>
    unfold writeFixedUnsigned
    by_cases natural : 0 ≤ n
    · simp only [if_pos natural]
      refine Write.Extends.ite (fun fits => ?_) fun _ => Write.Extends.throw _
      exact (Width.writeUnsigned_emits _ _).mono fun _ _ _ known => ⟨known, natural, fits⟩
    · simp only [if_neg natural]
      exact Write.Extends.throw _
  | _ => exact Write.Extends.throw _

theorem encodeFixed_extends (value : Primitive) (type : DataType) (width : Nat) :
    Write.Extends (encodeFixed value type width) fun _ _ added =>
      added = value.fixedForm width ∧ value.FitsFixed type width := by
  unfold encodeFixed
  suffices Write.Extends _ fun _ _ added =>
      added = value.fixedForm width ∧ value.FitsFixed type width by
    apply ((Write.ensure_emits width).then_extends fun _ => this).mono
    rintro _ _ _ ⟨_, ⟨rfl, fits⟩, rfl⟩
    exact ⟨rfl, fits⟩
  cases base : type.base with
  | int => exact writeFixedSigned_extends value base width
  | uint => exact writeFixedUnsigned_extends value base width
  -- The other kinds of values have one width each, whatever width is declared.
  | _ =>
    cases value with
    | _ =>
      first
      | exact Write.Extends.throw _
      | exact (Write.bytes_emits _).mono fun _ _ _ known =>
          ⟨known, by unfold FitsFixed; rw [base]; rfl⟩

theorem encodeSet_extends (value : Primitive) (type : DataType) :
    Write.Extends (encodeSet value type) fun _ _ added =>
      added = value.setForm type ∧ value.FitsSet type := by
  unfold encodeSet setForm FitsSet
  cases type.setLayout? with
  | none => exact Write.Extends.throw _
  | some layout =>
    cases layout with
    | fixed width => exact encodeFixed_extends value type width
    | shortFrame =>
      apply (LengthSlot.around_extends .byte value.encode_emits).mono
      rintro _ _ _ ⟨_, rfl, fits, rfl⟩
      exact ⟨rfl, fits⟩
    | longFrame =>
      apply (LengthSlot.around_extends .bits16 value.encode_emits).mono
      rintro _ _ _ ⟨_, rfl, fits, rfl⟩
      exact ⟨rfl, fits⟩

/-! ## Reading back -/

/-- A value as its payload gives it back. -/
def reread : Primitive → Primitive
  | .bytes type [] => .blank type.dataType
  | value => value

def isPlain : Primitive → Bool
  | .int _ | .uint _ | .enum _ | .bytes .. => true
  | _ => false

theorem isEmpty_ofNat {width : Nat} (positive : 0 < width) (n : Nat) :
    (Bytes.ofNat width n).isEmpty = false := by
  rw [List.isEmpty_eq_false_iff, ← List.length_pos_iff, Bytes.length_ofNat]
  exact positive

theorem all_readUnsigned (n : UInt64) :
    Read.all (Width.readUnsigned (max (Width.ofUnsigned n) 1))
      (Bytes.ofNat (max (Width.ofUnsigned n) 1) n.toNat) = .ok n := by
  have most := Width.ofUnsigned_le_eight n
  exact Read.all_front (Width.readUnsigned_ofNat (by omega) (Nat.le_max_left _ _))

theorem all_readSigned (n : Int64) :
    Read.all (Width.readSigned (max (Width.ofSigned n) 1))
      (Bytes.ofNat (max (Width.ofSigned n) 1) n.toUInt64.toNat) = .ok n := by
  have most := Width.ofSigned_le_eight n
  exact Read.all_front (Width.readSigned_ofNat (by omega) (Nat.le_max_left _ _))

theorem decodeEnum_payload (n : UInt16) : decodeEnum (payload (.enum n)) = .ok (.enum n) := by
  have small : n.toUInt64.toNat < 65536 := n.toNat_lt
  unfold decodeEnum payload
  rw [Bytes.length_ofNat, all_readUnsigned]
  change (if n.toUInt64.toNat < 65536 then _ else _) = _
  rw [if_pos small, UInt16.toUInt16_toUInt64]
  rfl

theorem decode_payload {value : Primitive} {type : DataType} (plain : value.isPlain)
    (native : value.dataType = type.base) : decode type value.payload = .ok value.reread := by
  unfold decode
  rw [← native]
  -- An integer has a byte at least, so only byte strings come back as blanks.
  cases value with
  | int n =>
    have filled := isEmpty_ofNat (show 0 < max (Width.ofSigned n) 1 by omega) n.toUInt64.toNat
    simp only [payload, dataType, filled, Bytes.length_ofNat, all_readSigned]
    rfl
  | uint n =>
    have filled := isEmpty_ofNat (show 0 < max (Width.ofUnsigned n) 1 by omega) n.toNat
    simp only [payload, dataType, filled, Bytes.length_ofNat, all_readUnsigned]
    rfl
  | enum n =>
    have filled : (payload (.enum n)).isEmpty = false :=
      isEmpty_ofNat (show 0 < max (Width.ofUnsigned n.toUInt64) 1 by omega) n.toUInt64.toNat
    simp only [dataType, filled, decodeEnum_payload]
    rfl
  | bytes type content =>
    cases content with
    | nil => cases type <;> rfl
    | cons first rest => cases type <;> rfl
  | _ => cases plain

theorem width_le_eight {type : DataType} {width : Nat} (layout : type.setLayout? = some (.fixed width))
    (integer : type.base = .int ∨ type.base = .uint) : width ≤ 8 := by
  revert layout integer
  cases type <;> simp [DataType.setLayout?, DataType.base] <;> omega

/-- A plain value that fits a declared type of its own kind comes back from its form. -/
theorem readSet_setForm {value : Primitive} {type : DataType} (plain : value.isPlain)
    (native : value.dataType = type.base) (fits : value.FitsSet type) (rest : Bytes) :
    readSet type (value.setForm type ++ rest) = .ok value.reread rest := by
  unfold FitsSet at fits
  unfold readSet setForm
  cases layout : type.setLayout? with
  | none =>
    rw [layout] at fits
    exact fits.elim
  | some form =>
    rw [layout] at fits
    cases form with
    | shortFrame => exact Read.ofExcept_ok (Read.framed_frame fits rest) (decode_payload plain native)
    | longFrame => exact Read.ofExcept_ok (Read.framed_frame fits rest) (decode_payload plain native)
    -- Among plain values only integers have layouts of a fixed width.
    | fixed width =>
      change value.FitsFixed type width at fits
      unfold FitsFixed at fits
      cases value with
      | int n =>
        have base : type.base = .int := native.symm
        have most := width_le_eight layout (.inl base)
        rw [base] at fits
        refine Read.ofExcept_ok (Read.bytes_append (Bytes.length_ofNat _ _) rest) ?_
        simp only [decodeFixed, base, Bytes.length_ofNat,
          Read.all_front (Width.readSigned_ofNat most fits)]
        rfl
      | uint n =>
        have base : type.base = .uint := native.symm
        have most := width_le_eight layout (.inr base)
        rw [base] at fits
        refine Read.ofExcept_ok (Read.bytes_append (Bytes.length_ofNat _ _) rest) ?_
        simp only [decodeFixed, base, Bytes.length_ofNat,
          Read.all_front (Width.readUnsigned_ofNat most fits)]
        rfl
      | enum n =>
        revert layout native
        cases type <;> simp [DataType.setLayout?, DataType.base, dataType]
      | bytes kind content =>
        revert layout native
        cases type <;> cases kind <;>
          simp [DataType.setLayout?, DataType.base, dataType, ByteType.dataType]
      | _ => cases plain

end Primitive

end MarketWire
