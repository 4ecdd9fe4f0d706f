import MarketWire.Calendar.DateTime
import MarketWire.Proofs.Frames

/-! Dates and times, written and read back.

A date comes back from its four bytes. A time comes back from a form that leaves out no more than zeros,
provided that it is valid: then the two finest components, which share three bytes in the longest form,
do not overlap.
-/

set_option autoImplicit false

namespace MarketWire

namespace Date

theorem length_bytes (date : Date) : date.bytes.length = wireLength := by
  simp [bytes, wireLength]

theorem read_bytes (date : Date) (rest : Bytes) : read (date.bytes ++ rest) = .ok date rest := by
  unfold read bytes
  simp only [List.cons_append, List.nil_append]
  rw [Program.bind_ok (Read.byte_cons _ _), Program.bind_ok (Read.byte_cons _ _),
    Program.bind_ok (Read.uint16_ofNat _ _)]
  rfl

theorem decode_bytes (date : Date) : decode date.bytes = .ok date := by
  exact Read.all_front date.read_bytes

end Date

namespace Time

/-! ## Packed components -/

theorem and_field (n width shift : Nat) :
    n &&& (2 ^ width - 1) * 2 ^ shift = n / 2 ^ shift % 2 ^ width * 2 ^ shift := by
  have positive : 0 < 2 ^ shift := Nat.two_pow_pos shift
  have low : (n &&& (2 ^ width - 1) * 2 ^ shift) % 2 ^ shift = 0 := by
    rw [Nat.and_mod_two_pow, Nat.mul_mod_left, Nat.and_zero]
  have high : (n &&& (2 ^ width - 1) * 2 ^ shift) / 2 ^ shift = n / 2 ^ shift % 2 ^ width := by
    rw [Nat.and_div_two_pow, Nat.mul_div_cancel _ positive, Nat.and_two_pow_sub_one_eq_mod]
  rw [← high]
  exact (Nat.div_mul_cancel (Nat.dvd_of_mod_eq_zero low)).symm

/-- The microsecond with the upper bits of the nanosecond above it. -/
def packed (time : Time) : UInt16 := ((time.nanosecond &&& 0xFF00) <<< 3) ||| time.microsecond

def IsNarrow (time : Time) : Prop := time.microsecond.toNat < 2048 ∧ time.nanosecond.toNat < 2048

theorem toNat_packed {time : Time} (narrow : time.IsNarrow) :
    time.packed.toNat = 2048 * (time.nanosecond.toNat / 256) + time.microsecond.toNat := by
  obtain ⟨micro, nano⟩ := narrow
  have upper : time.nanosecond.toNat &&& 0xFF00 = time.nanosecond.toNat / 256 % 256 * 256 :=
    and_field time.nanosecond.toNat 8 8
  have place : ((time.nanosecond &&& 0xFF00) <<< 3).toNat = 2 ^ 11 * (time.nanosecond.toNat / 256) := by
    rw [UInt16.toNat_shiftLeft, UInt16.toNat_and]
    change (time.nanosecond.toNat &&& 0xFF00) <<< 3 % 2 ^ 16 = _
    rw [upper, Nat.shiftLeft_eq]
    omega
  unfold packed
  rw [UInt16.toNat_or, place, ← Nat.two_pow_add_eq_or_of_lt micro]

theorem microsecond_packed {time : Time} (narrow : time.IsNarrow) :
    time.packed &&& 0x07FF = time.microsecond := by
  have number := toNat_packed narrow
  have micro := narrow.1
  apply UInt16.toNat_inj.mp
  rw [UInt16.toNat_and]
  have field : time.packed.toNat &&& 0x07FF = time.packed.toNat / 1 % 2048 * 1 :=
    and_field time.packed.toNat 11 0
  change time.packed.toNat &&& 0x07FF = _
  rw [field, number]
  omega

theorem nanosecond_packed {time : Time} (narrow : time.IsNarrow) :
    ((time.packed &&& 0x3800) >>> 3) + (UInt8.ofNat time.nanosecond.toNat).toUInt16 =
      time.nanosecond := by
  have number := toNat_packed narrow
  obtain ⟨micro, nano⟩ := narrow
  have field : time.packed.toNat &&& 0x3800 = time.packed.toNat / 2048 % 8 * 2048 :=
    and_field time.packed.toNat 3 11
  apply UInt16.toNat_inj.mp
  rw [UInt16.toNat_add, UInt16.toNat_shiftRight, UInt16.toNat_and, UInt8.toNat_toUInt16,
    UInt8.toNat_ofNat']
  change ((time.packed.toNat &&& 0x3800) >>> 3 + time.nanosecond.toNat % 2 ^ 8) % 2 ^ 16 = _
  rw [field, number, Nat.shiftRight_eq_div_pow]
  omega

/-! ## Forms -/

def lengths : List Nat := [2, 3, 5, 7, 8]

theorem wireLength_mem (time : Time) : time.wireLength ∈ lengths := by
  unfold wireLength lengths
  split
  · simp
  split
  · simp
  split
  · simp
  split <;> simp

theorem length_bytes (time : Time) {length : Nat} (known : length ∈ lengths) :
    (time.bytes length).length = length := by
  simp only [lengths, List.mem_cons, List.not_mem_nil, or_false] at known
  rcases known with rfl | rfl | rfl | rfl | rfl <;> simp [bytes, packedBytes]

/-- What a form does not tell: a time without an hour has no other components. -/
def leftOut (time : Time) : Time := if time.hour = blankByte then blank else ofSeconds 0 0 0

def kept (time : Time) (length : Nat) : Time where
  hour := time.hour
  minute := time.minute
  second := if 3 ≤ length then time.second else time.leftOut.second
  millisecond := if 5 ≤ length then time.millisecond else time.leftOut.millisecond
  microsecond :=
    if length = 7 then time.microsecond
    else if length = 8 then time.packed &&& 0x07FF
    else time.leftOut.microsecond
  nanosecond :=
    if length = 8 then
      ((time.packed &&& 0x3800) >>> 3) + (UInt8.ofNat time.nanosecond.toNat).toUInt16
    else time.leftOut.nanosecond

theorem readFrom_bytes (time : Time) {length : Nat} (known : length ∈ lengths) (rest : Bytes) :
    readFrom length (time.bytes length ++ rest) = .ok (time.kept length) rest := by
  simp only [lengths, List.mem_cons, List.not_mem_nil, or_false] at known
  unfold readFrom bytes
  rcases known with rfl | rfl | rfl | rfl | rfl
  · rfl
  · rfl
  all_goals
    simp +decide only [↓reduceIte, List.append_assoc, List.cons_append, List.nil_append]
    rw [Program.bind_ok (Read.byte_cons _ _), Program.bind_ok (Read.byte_cons _ _),
      Program.bind_ok (Read.byte_cons _ _), Program.bind_ok (Read.uint16_ofNat _ _)]
  · rfl
  · rw [Program.bind_ok (Read.uint16_ofNat _ _)]
    rfl
  · change (Read.uint16 >>= _) (Bytes.ofNat 2 time.packed.toNat ++ _) = _
    rw [Program.bind_ok (Read.uint16_ofNat _ _)]
    rfl

/-! ## Valid times -/

theorem isNarrow_of_isValid {time : Time} (valid : time.isValid) : time.IsNarrow := by
  have range : ∀ n : UInt16, n = blankSubMilli ∨ n ≤ 999 → n.toNat < 2048 := by
    rintro n (rfl | small)
    · decide
    · exact Nat.lt_of_le_of_lt (UInt16.le_iff_toNat_le.mp small) (by decide)
  have each := (Bool.and_eq_true_iff.mp valid).1
  simp only [components, List.all_cons, Bool.and_eq_true, Bool.or_eq_true, decide_eq_true_eq] at each
  obtain ⟨-, -, -, -, micro, nano, -⟩ := each
  exact ⟨range _ micro, range _ nano⟩

theorem eq_blank_of_isValid {time : Time} (valid : time.isValid) (noHour : time.hour = blankByte) :
    time = blank := by
  have below := (Bool.and_eq_true_iff.mp valid).2
  unfold components at below
  rw [List.dropWhile_cons_of_neg (by simp [noHour])] at below
  simp only [List.all_cons, List.all_nil, Bool.and_eq_true, decide_eq_true_eq] at below
  obtain ⟨hour, minute, second, millisecond, microsecond, nanosecond⟩ := time
  obtain ⟨rfl, rfl, rfl, rfl, rfl, rfl, -⟩ := below
  rfl

/-- No component that the form of a length leaves out is other than zero. -/
def HeldBy (time : Time) (length : Nat) : Prop :=
  (3 ≤ length ∨ time.second = 0) ∧ (5 ≤ length ∨ time.millisecond = 0) ∧
    (7 ≤ length ∨ time.microsecond = 0) ∧ (8 ≤ length ∨ time.nanosecond = 0)

theorem heldBy_wireLength (time : Time) : time.HeldBy time.wireLength := by
  unfold wireLength HeldBy
  split
  · simp
  next nano =>
  split
  · simp_all
  next micro =>
  split
  · simp_all
  next milli =>
  split <;> simp_all

theorem kept_blank {length : Nat} (known : length ∈ lengths) : blank.kept length = blank := by
  simp only [lengths, List.mem_cons, List.not_mem_nil, or_false] at known
  rcases known with rfl | rfl | rfl | rfl | rfl <;> decide

theorem isBlank_kept {time : Time} (absent : time.isBlank) {length : Nat} (known : length ∈ lengths) :
    (time.kept length).isBlank := by
  obtain rfl : time = blank := of_decide_eq_true absent
  rw [kept_blank known]
  exact absent

/-- A time with an hour comes back from each form that leaves out no more than zeros, if its finest counts have room. -/
theorem kept_eq_of_hour {time : Time} (hour : time.hour ≠ blankByte) {length : Nat} (known : length ∈ lengths)
    (held : time.HeldBy length) (narrow : length = 8 → time.IsNarrow) : time.kept length = time := by
  have zeros : time.leftOut = ofSeconds 0 0 0 := if_neg hour
  obtain ⟨second, millisecond, microsecond, nanosecond⟩ := held
  simp only [lengths, List.mem_cons, List.not_mem_nil, or_false] at known
  unfold kept
  rw [zeros]
  rcases known with rfl | rfl | rfl | rfl | rfl
  case inr.inr.inr.inr =>
    rw [microsecond_packed (narrow rfl), nanosecond_packed (narrow rfl)]
    cases time
    simp
  all_goals
    cases time
    simp_all [ofSeconds]

theorem kept_eq {time : Time} (valid : time.isValid) {length : Nat} (known : length ∈ lengths)
    (held : time.HeldBy length) : time.kept length = time := by
  by_cases noHour : time.hour = blankByte
  · obtain rfl := eq_blank_of_isValid valid noHour
    exact kept_blank known
  · exact kept_eq_of_hour noHour known held fun _ => isNarrow_of_isValid valid

theorem decode_bytes (time : Time) {length : Nat} (known : length ∈ lengths) :
    decode (time.bytes length) = .ok (time.kept length) := by
  have filled : (time.bytes length).isEmpty = false := rfl
  unfold decode
  rw [filled, time.length_bytes known]
  exact Read.all_front (time.readFrom_bytes known)

end Time

namespace DateTime

theorem decode_bytes (value : DateTime) {length : Nat} (known : length ∈ Time.lengths) :
    decode (value.date.bytes ++ value.time.bytes length) =
      .ok ⟨value.date, value.time.kept length⟩ := by
  have size : (value.date.bytes ++ value.time.bytes length).length = Date.wireLength + length := by
    rw [List.length_append, value.date.length_bytes, value.time.length_bytes known]
  have behind : (value.date.bytes ++ value.time.bytes length).drop Date.wireLength =
      value.time.bytes length := by
    rw [← value.date.length_bytes, List.drop_left]
  have enough : 2 ≤ length := by
    revert known
    simp only [Time.lengths, List.mem_cons, List.not_mem_nil, or_false]
    omega
  have filled : (value.date.bytes ++ value.time.bytes length).isEmpty = false := rfl
  unfold decode
  rw [filled, size, behind, Nat.add_sub_cancel_left, Read.all_front (value.time.readFrom_bytes known),
    Read.all_ok (value.date.read_bytes (value.time.bytes length)), if_neg (by decide),
    if_neg (by omega)]
  rfl

end DateTime

end MarketWire
