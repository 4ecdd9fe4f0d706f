import MarketWire.Proofs.FixedTimes
import MarketWire.Proofs.WholeValues

/-! Values that are read, written again and read once more.

A payload may be longer than its value needs, and its components may be out of range. The value that is found in it is
written in the shortest form and comes back from there, with one exception: behind a blank hour, components that a form
leaves out are blank and not zero, and a microsecond of more than eleven bits runs into the nanosecond.
-/

set_option autoImplicit false

namespace MarketWire

namespace Time

/-! ## Times that are found -/

/-- What is found in a form: a nanosecond takes eleven bits, and so does the microsecond beside one, unless the hour is
blank and the nanosecond with it. -/
structure IsFound (time : Time) : Prop where
  nanosecond : time.nanosecond.toNat < 2048
  microsecond : time.hour ≠ blankByte → time.nanosecond ≠ 0 → time.microsecond.toNat < 2048

theorem low_lt (packed : UInt16) : (packed &&& 0x07FF).toNat < 2048 := by
  rw [UInt16.toNat_and]
  exact Nat.lt_succ_of_le Nat.and_le_right

theorem high_lt (packed : UInt16) (low : UInt8) :
    (((packed &&& 0x3800) >>> 3) + low.toUInt16).toNat < 2048 := by
  have most : packed.toNat &&& 0x3800 ≤ 0x3800 := Nat.and_le_right
  have small : low.toNat < 256 := low.toNat_lt
  rw [UInt16.toNat_add, UInt16.toNat_shiftRight, UInt16.toNat_and, UInt8.toNat_toUInt16]
  change ((packed.toNat &&& 0x3800) >>> 3 + low.toNat) % 2 ^ 16 < 2048
  rw [Nat.shiftRight_eq_div_pow]
  omega

theorem isFound_of_leftOut {time : Time} (left : time.nanosecond = time.leftOut.nanosecond) : time.IsFound := by
  unfold leftOut at left
  by_cases noHour : time.hour = blankByte
  · rw [if_pos noHour] at left
    exact ⟨by rw [left]; decide, fun hour => absurd noHour hour⟩
  · rw [if_neg noHour] at left
    exact ⟨by rw [left]; decide, fun _ set => absurd left set⟩

theorem isFound_of_readFrom {time : Time} {length : Nat} {bytes rest : Bytes}
    (found : readFrom length bytes = .ok time rest) : time.IsFound := by
  unfold readFrom at found
  split at found
  case isTrue => cases found
  case isFalse =>
    obtain ⟨hour, _, -, found⟩ := Program.bind_eq_ok found
    obtain ⟨minute, _, -, found⟩ := Program.bind_eq_ok found
    obtain ⟨second, _, found⟩ := Program.default_bind_eq_ok found
    obtain ⟨millisecond, _, found⟩ := Program.default_bind_eq_ok found
    split at found
    case isTrue seven =>
      obtain ⟨microsecond, _, -, found⟩ := Program.bind_eq_ok found
      cases found
      exact isFound_of_leftOut rfl
    case isFalse =>
      split at found
      case isTrue eight =>
        obtain ⟨packed, _, -, found⟩ := Program.bind_eq_ok found
        obtain ⟨low, _, -, found⟩ := Program.bind_eq_ok found
        cases found
        exact ⟨high_lt packed low, fun _ _ => low_lt packed⟩
      case isFalse =>
        cases found
        exact isFound_of_leftOut rfl

theorem isFound_of_decode {time : Time} {payload : Bytes} (decoded : decode payload = .ok time) : time.IsFound := by
  unfold decode at decoded
  split at decoded
  case isTrue =>
    cases decoded
    exact isFound_of_leftOut rfl
  case isFalse =>
    obtain ⟨rest, found⟩ := Read.all_eq_ok decoded
    exact isFound_of_readFrom found

/-! ## Times that come back -/

/-- With an hour, a time that was found comes back. Without one it takes a nanosecond, or what is left out comes back
blank, and a microsecond that has room beside it. -/
def ComesBack (time : Time) : Prop :=
  time.hour = blankByte → time.nanosecond ≠ 0 ∧ time.microsecond.toNat < 2048

theorem wireLength_eq_eight_iff {time : Time} : time.wireLength = 8 ↔ time.nanosecond ≠ 0 := by
  unfold wireLength
  grind

/-- In the longest form every component has a place, but the finest two have eleven bits each. -/
theorem kept_longest_eq_iff {time : Time} : time.kept 8 = time ↔ time.IsNarrow := by
  constructor
  · intro same
    rw [← same]
    exact ⟨low_lt _, high_lt _ _⟩
  · intro narrow
    unfold kept
    rw [microsecond_packed narrow, nanosecond_packed narrow]
    rfl

theorem kept_wireLength_eq_iff {time : Time} (found : time.IsFound) :
    time.kept time.wireLength = time ↔ time.ComesBack := by
  by_cases noHour : time.hour = blankByte
  case neg =>
    refine iff_of_true ?_ (absurd · noHour)
    refine kept_eq_of_hour noHour time.wireLength_mem time.heldBy_wireLength fun longest => ?_
    exact ⟨found.microsecond noHour (wireLength_eq_eight_iff.mp longest), found.nanosecond⟩
  case pos =>
    by_cases set : time.nanosecond = 0
    case neg =>
      rw [wireLength_eq_eight_iff.mpr set, kept_longest_eq_iff]
      exact ⟨fun narrow _ => ⟨set, narrow.1⟩, fun back => ⟨(back noHour).2, found.nanosecond⟩⟩
    case pos =>
      refine iff_of_false (fun same => ?_) fun back => (back noHour).1 set
      have other : time.wireLength ≠ 8 := mt wireLength_eq_eight_iff.mp (not_not_intro set)
      -- No nanosecond is written, and none comes back.
      have blank : (time.kept time.wireLength).nanosecond = blankSubMilli := by
        unfold kept leftOut
        exact (if_neg other).trans (congrArg Time.nanosecond (if_pos noHour))
      rw [same, set] at blank
      exact absurd blank (by decide)

end Time

theorem DateTime.isFound_of_decode {value : DateTime} {payload : Bytes} (decoded : decode payload = .ok value) :
    value.time.IsFound := by
  unfold decode at decoded
  split at decoded
  case isTrue =>
    cases decoded
    exact Time.isFound_of_leftOut rfl
  case isFalse =>
    split at decoded
    case isTrue => cases decoded
    case isFalse =>
      obtain ⟨date, -, decoded⟩ := Program.of_ok_bind decoded
      split at decoded
      case h_1 time found =>
        obtain ⟨rest, found⟩ := Read.all_eq_ok found
        cases decoded
        exact Time.isFound_of_readFrom found
      case h_2 => cases decoded

/-! ## Reals that are found -/

namespace RealHint

theorem code_of_ofCode? {code : UInt8} {hint : RealHint} (known : ofCode? code = some hint) : hint.code = code := by
  unfold ofCode? at known
  split at known
  case isTrue =>
    cases known
    rfl
  case isFalse => cases known

theorem isSome_of_ofCode? {code : UInt8} {hint : RealHint} (known : ofCode? code = some hint) :
    (ofCode? hint.code).isSome := by
  rw [code_of_ofCode? known, known]
  rfl

theorem isNonFinite_of_masked {first : UInt8} {hint : RealHint}
    (known : ofCode? (first &&& Real.hintMask) = some hint) : hint.isNonFinite = false := by
  have most : (first &&& Real.hintMask).toNat ≤ 31 := by
    rw [UInt8.toNat_and]
    exact Nat.and_le_right
  unfold isNonFinite
  rw [code_of_ofCode? known, decide_eq_false_iff_not, UInt8.le_iff_toNat_le]
  exact Nat.not_le.mpr (Nat.lt_of_le_of_lt most (by decide))

end RealHint

namespace Real

structure IsFound (real : Real) : Prop where
  meaning : (RealHint.ofCode? real.hint.code).isSome
  alone : real.hint.isNonFinite → real.value = 0

theorem isFound_of_decode {real : Real} {payload : Bytes} (decoded : decode payload = .ok real) : real.IsFound := by
  have blank : blankReal.IsFound := ⟨rfl, fun _ => rfl⟩
  unfold decode at decoded
  split at decoded
  case h_1 => exact Except.ok.inj decoded ▸ blank
  case h_2 code =>
    split at decoded
    case h_1 hint alone =>
      obtain ⟨known, -⟩ := Option.filter_eq_some_iff.mp alone
      cases decoded
      exact ⟨RealHint.isSome_of_ofCode? known, fun _ => rfl⟩
    case h_2 => exact Except.ok.inj decoded ▸ blank
  case h_3 first mantissa _ =>
    split at decoded
    case h_1 => cases decoded
    case h_2 hint known =>
      obtain ⟨value, -, found⟩ := Program.of_ok_bind decoded
      cases found
      refine ⟨RealHint.isSome_of_ofCode? known, fun infinite => ?_⟩
      exact absurd infinite (Bool.eq_false_iff.mp (RealHint.isNonFinite_of_masked known))

end Real

namespace Primitive

/-! ## Values that are found -/

/-- What is found in a payload: no bytes are found as a blank, and bytes that have no meaning here as those of two
types. -/
def IsFound : Primitive → Prop
  | .real value => value.IsFound
  | .time value => value.IsFound
  | .dateTime both => both.time.IsFound
  | .bytes _ content => content ≠ []
  | .encoded type payload => (type = .qos ∨ type = .state) ∧ payload ≠ []
  | _ => True

theorem mem_of_no_byteType {type : DataType} (primitive : type.isPrimitive) (none : ByteType.ofDataType? type = none) :
    type ∈ [.int, .uint, .enum, .float, .double, .real, .date, .time, .dateTime, .qos, .state] := by
  revert primitive none
  cases type <;> decide

theorem dataType_of_byteType {type : DataType} {own : ByteType} (meaning : ByteType.ofDataType? type = some own) :
    own.dataType = type := by
  revert meaning
  cases type <;> rintro ⟨⟩ <;> rfl

theorem isPrimitive_of_decode {type : DataType} {payload : Bytes} {value : Primitive}
    (decoded : decode type payload = .ok value) : type.base.isPrimitive := by
  unfold decode at decoded
  dsimp only at decoded
  split at decoded
  case isTrue => cases decoded
  case isFalse known => exact Decidable.of_not_not known

theorem isFound_of_decode {type : DataType} {payload : Bytes} {value : Primitive}
    (decoded : decode type payload = .ok value) : value.IsFound ∧ value.dataType = type.base := by
  have primitive := isPrimitive_of_decode decoded
  unfold decode at decoded
  dsimp only at decoded
  rw [if_neg (not_not_intro primitive)] at decoded
  split at decoded
  case isTrue =>
    cases decoded
    exact ⟨trivial, rfl⟩
  case isFalse filled =>
  have nonempty : payload ≠ [] := mt List.isEmpty_iff.mpr filled
  -- The cases are the types in the order in which they are told apart: numbers, then reals and calendars, then bytes.
  split at decoded
  case h_1 is | h_2 is | h_7 is =>
    obtain ⟨_, -, rfl⟩ := Program.of_ok_map decoded
    exact ⟨trivial, is.symm⟩
  case h_3 is =>
    obtain ⟨_, -, decoded⟩ := Program.of_ok_bind decoded
    split at decoded
    case isTrue =>
      cases decoded
      exact ⟨trivial, is.symm⟩
    case isFalse => cases decoded
  case h_4 is | h_5 is =>
    split at decoded
    case isTrue =>
      obtain ⟨_, -, rfl⟩ := Program.of_ok_map decoded
      exact ⟨trivial, is.symm⟩
    case isFalse => cases decoded
  case h_6 is =>
    obtain ⟨_, found, rfl⟩ := Program.of_ok_map decoded
    exact ⟨Real.isFound_of_decode found, is.symm⟩
  case h_8 is =>
    obtain ⟨_, found, rfl⟩ := Program.of_ok_map decoded
    exact ⟨Time.isFound_of_decode found, is.symm⟩
  case h_9 is =>
    obtain ⟨_, found, rfl⟩ := Program.of_ok_map decoded
    exact ⟨DateTime.isFound_of_decode found, is.symm⟩
  case h_10 =>
    split at decoded
    case h_1 own meaning =>
      cases decoded
      exact ⟨nonempty, dataType_of_byteType meaning⟩
    case h_2 none =>
      cases decoded
      have others := mem_of_no_byteType primitive none
      exact ⟨⟨by simp_all, nonempty⟩, rfl⟩

theorem decode_base (type : DataType) (payload : Bytes) : decode type.base payload = decode type payload := by
  unfold decode
  rw [type.base_base]

/-! ## Values that come back -/

def Same (found value : Primitive) : Prop :=
  found = value ∨ (found.dataType = .real ∧ found.isBlank) ∧ value.dataType = .real ∧ value.isBlank

section
variable {value : Primitive} {time : Time}

theorem isFound_of_time (holds : value.time? = some time) (found : value.IsFound) : time.IsFound := by
  cases value with
  | time value =>
    cases holds
    exact found
  | dateTime both =>
    cases holds
    exact found
  | _ => cases holds

theorem returned_eq_withTime (holds : value.time? = some time) :
    value.returned = value.withTime (time.kept time.wireLength) := by
  cases value with
  | time | dateTime =>
    cases holds
    rfl
  | _ => cases holds

/-- Without a time of day, every value that was found comes back. -/
theorem returned_same_of_timeless (found : value.IsFound) (proper : value.isProper) (timeless : value.time? = none) :
    value.returned.Same value := by
  cases value with
  | real value =>
    change (if value.blank then Primitive.blank .real else .real value.kept).Same (.real value)
    cases blank : value.blank with
    | true => exact .inr ⟨⟨rfl, rfl⟩, rfl, blank⟩
    | false => exact .inl (congrArg Primitive.real (value.kept_eq_self blank found.alone))
  | time | dateTime => cases timeless
  | bytes type content => exact .inl (reread_bytes found)
  | encoded => cases proper
  | _ => exact .inl rfl

theorem returned_same_iff (found : value.IsFound) (proper : value.isProper) :
    value.returned.Same value ↔ ∀ time ∈ value.time?, time.ComesBack := by
  cases holds : value.time? with
  | none => exact iff_of_true (returned_same_of_timeless found proper holds) nofun
  | some time =>
    have noReal : value.dataType ≠ .real := by
      cases value with
      | time => exact (nofun : DataType.time ≠ .real)
      | dateTime => exact (nofun : DataType.dateTime ≠ .real)
      | _ => cases holds
    have equal : value.returned.Same value ↔ value.returned = value := or_iff_left fun reals => noReal reals.2.1
    rw [equal, returned_eq_withTime holds, withTime_eq_iff holds,
      Time.kept_wireLength_eq_iff (isFound_of_time holds found)]
    exact ⟨fun back _ is => Option.mem_some.mp is ▸ back, fun all => all time rfl⟩

end

/-- A value that was found is written in a form of its own type, which gives the same value back exactly if its time of
day, when it has one, comes back. -/
theorem decode_reencoded_iff {type : DataType} {payload : Bytes} {value : Primitive}
    (decoded : decode type payload = .ok value) :
    ∃ form again, value.encode.Appends form ∧ decode type form = .ok again ∧
      (again.Same value ↔ ∀ time ∈ value.time?, time.ComesBack) := by
  obtain ⟨found, native⟩ := isFound_of_decode decoded
  by_cases proper : value.isProper
  case pos =>
    have primitive : value.dataType.isPrimitive := native ▸ isPrimitive_of_decode decoded
    have reads := decode_payload_proper proper primitive native
    exact ⟨value.payload, value.returned, value.encode_appends, reads, returned_same_iff found proper⟩
  case neg =>
    cases value with
    | encoded own payload =>
      obtain ⟨kept, nonempty⟩ := found
      have whole : restored (.encoded own payload) = .encoded own payload := by
        cases payload with
        | nil => exact absurd rfl nonempty
        | cons => rfl
      have reads : decode type payload = .ok (.encoded own payload) := by
        rw [← decode_base, ← native]
        exact (decode_encoded kept payload).trans (congrArg Except.ok whole)
      exact ⟨payload, _, Write.bytes_appends payload, reads, iff_of_true (.inl rfl) nofun⟩
    | real value => exact absurd found.meaning proper
    | _ => exact absurd rfl proper

/-- A time out of range comes back. One with all components zero but a blank hour does not. -/
theorem decode_reencoded_iff_hourless :
    let late : Primitive := .time ⟨25, 61, 99, 65534, 5000, 0⟩
    let hourless : Primitive := .time ⟨255, 0, 0, 0, 0, 0⟩
    (decode .time [25, 61, 99, 255, 254, 19, 136] = .ok late ∧
      ∃ form again, late.encode.Appends form ∧ decode .time form = .ok again ∧ again.Same late) ∧
    decode .time [255, 0, 0, 0, 0, 0, 0, 0] = .ok hourless ∧
      ∃ form again, hourless.encode.Appends form ∧ decode .time form = .ok again ∧ ¬ again.Same hourless := by
  intro late hourless
  have lateFound : decode .time [25, 61, 99, 255, 254, 19, 136] = .ok late := by rfl
  have hourlessFound : decode .time [255, 0, 0, 0, 0, 0, 0, 0] = .ok hourless := by rfl
  obtain ⟨long, lateAgain, lateWritten, lateReads, kept⟩ := decode_reencoded_iff lateFound
  obtain ⟨short, again, written, reads, lost⟩ := decode_reencoded_iff hourlessFound
  refine ⟨⟨lateFound, long, lateAgain, lateWritten, lateReads, kept.mpr ?_⟩,
    hourlessFound, short, again, written, reads, fun same => ?_⟩
  · rintro _ ⟨⟩ noHour
    exact absurd noHour (by decide)
  · exact (lost.mp same _ rfl rfl).1 rfl

/-- Not every value that was found comes back: behind a blank hour, components of zero are left out and come back
blank. -/
theorem zeros_come_back_blank : ¬ ∀ (type : DataType) (payload : Bytes) (value again : Primitive)
    (output after : Output) (added : Bytes), type.isPrimitive → decode type payload = .ok value →
      value.encode output = .ok () after → after.toList = output.toList ++ added →
      decode type added = .ok again → again.Same value := by
  intro all
  let hourless : Primitive := .time ⟨255, 0, 0, 0, 0, 0⟩
  let blanks : Primitive := .time { Time.blank with minute := 0 }
  have found : decode .time [255, 0, 0, 0, 0, 0, 0, 0] = .ok hourless := by rfl
  obtain ⟨after, written, bytes⟩ := hourless.encode_appends.whole (.empty 8) (by decide)
  have again : decode .time [255, 0] = .ok blanks := by rfl
  obtain same | ⟨-, none, -⟩ := all .time _ hourless blanks (.empty 8) after _ rfl found written bytes again
  · exact absurd same (by decide)
  · cases none

end Primitive

end MarketWire
