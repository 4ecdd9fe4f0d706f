import MarketWire.Proofs.DateTexts

/-! Times in text, with all components.

Behind the seconds the finer components stand as a decimal fraction, of which zeros at the end may be left out, or as
three counts behind colons. Either way a time comes back, a second of 60 and zeros in front included.
-/

set_option autoImplicit false

namespace MarketWire

namespace Time

structure IsFull (time : Time) : Prop where
  valid : time.isValid
  set : ∀ component ∈ time.components, component.1 = false

def clockText (time : Time) (rest : List Char) : List Char :=
  Decimal.padded 2 time.hour.toNat ++
    ':' :: (Decimal.padded 2 time.minute.toNat ++ ':' :: (Decimal.padded 2 time.second.toNat ++ rest))

def fractionText (time : Time) : List Char :=
  Decimal.padded 3 time.millisecond.toNat ++
    (Decimal.padded 3 time.microsecond.toNat ++ Decimal.padded 3 time.nanosecond.toNat)

def countsText (time : Time) : List Char :=
  Decimal.padded 3 time.millisecond.toNat ++
    ':' :: (Decimal.padded 3 time.microsecond.toNat ++ ':' :: Decimal.padded 3 time.nanosecond.toNat)

/-- A text has a time with all components, in one of two forms; a fraction may leave out zeros at its end. -/
inductive Writes (time : Time) : List Char → Prop where
  | fraction {digits : List Char} {zeros : Nat} (written : digits ≠ [])
      (completed : digits ++ List.replicate zeros '0' = time.fractionText) :
      Writes time (time.clockText ('.' :: digits))
  | counts : Writes time (time.clockText (':' :: time.countsText))

namespace IsFull

variable {time : Time} (full : time.IsFull)
include full

theorem bounds : time.hour.toNat < 10 ^ 2 ∧ time.minute.toNat < 10 ^ 2 ∧ time.second.toNat < 10 ^ 2 ∧
    time.millisecond.toNat < 10 ^ 3 ∧ time.microsecond.toNat < 10 ^ 3 ∧ time.nanosecond.toNat < 10 ^ 3 := by
  have valid := full.valid
  have set := full.set
  simp only [isValid, components, Bool.and_eq_true, List.all_cons, List.all_nil, Bool.or_eq_true, decide_eq_true_eq,
    UInt8.le_iff_toNat_le, UInt16.le_iff_toNat_le] at valid
  simp only [components, List.mem_cons, forall_eq_or_imp, decide_eq_false_iff_not] at set
  obtain ⟨⟨hour, minute, second, milli, micro, nano, -⟩, -⟩ := valid
  obtain ⟨noHour, noMinute, noSecond, noMilli, noMicro, noNano, -⟩ := set
  exact ⟨Nat.lt_of_le_of_lt (hour.resolve_left noHour) (by decide),
    Nat.lt_of_le_of_lt (minute.resolve_left noMinute) (by decide),
    Nat.lt_of_le_of_lt (second.resolve_left noSecond) (by decide),
    Nat.lt_of_le_of_lt (milli.resolve_left noMilli) (by decide),
    Nat.lt_of_le_of_lt (micro.resolve_left noMicro) (by decide),
    Nat.lt_of_le_of_lt (nano.resolve_left noNano) (by decide)⟩

theorem length_fractionText : time.fractionText.length = 9 := by
  obtain ⟨-, -, -, milli, micro, nano⟩ := full.bounds
  rw [fractionText, List.length_append, List.length_append, Decimal.length_padded (by decide) milli,
    Decimal.length_padded (by decide) micro, Decimal.length_padded (by decide) nano]

theorem ofDigitChars_fractionText : Nat.ofDigitChars 10 time.fractionText 0 =
    time.millisecond.toNat * 1000000 + time.microsecond.toNat * 1000 + time.nanosecond.toNat := by
  obtain ⟨-, -, -, milli, micro, nano⟩ := full.bounds
  rw [fractionText, Nat.ofDigitChars_append, Nat.ofDigitChars_append, Decimal.ofDigitChars_padded (by decide) milli,
    Decimal.ofDigitChars_padded (by decide) micro, Decimal.ofDigitChars_padded (by decide) nano]
  ring

end IsFull

theorem isDigit_of_mem_fractionText {time : Time} {c : Char} (member : c ∈ time.fractionText) : c.isDigit := by
  simp only [fractionText, List.mem_append] at member
  rcases member with digit | digit | digit <;> exact Decimal.isDigit_of_mem_padded digit

theorem Writes.clock {time : Time} {text : List Char} (writes : time.Writes text) :
    ':' ∈ text ∧ ∀ c ∈ text, c.isDigit ∨ c = ':' ∨ c = '.' := by
  have clock {rest : List Char} (all : ∀ c ∈ rest, c.isDigit ∨ c = ':' ∨ c = '.') :
      ':' ∈ time.clockText rest ∧ ∀ c ∈ time.clockText rest, c.isDigit ∨ c = ':' ∨ c = '.' := by
    simp only [clockText, List.mem_append, List.mem_cons]
    refine ⟨by simp, fun c member => ?_⟩
    rcases member with digit | rfl | digit | rfl | digit | member
    · exact .inl (Decimal.isDigit_of_mem_padded digit)
    · exact .inr (.inl rfl)
    · exact .inl (Decimal.isDigit_of_mem_padded digit)
    · exact .inr (.inl rfl)
    · exact .inl (Decimal.isDigit_of_mem_padded digit)
    · exact all c member
  cases writes with
  | fraction written completed =>
    refine clock fun c member => ?_
    rcases List.mem_cons.mp member with rfl | digit
    · exact .inr (.inr rfl)
    · exact .inl (isDigit_of_mem_fractionText (completed ▸ List.mem_append_left _ digit))
  | counts =>
    refine clock fun c member => ?_
    simp only [countsText, List.mem_append, List.mem_cons] at member
    rcases member with rfl | digit | rfl | digit | rfl | digit
    · exact .inr (.inl rfl)
    · exact .inl (Decimal.isDigit_of_mem_padded digit)
    · exact .inr (.inl rfl)
    · exact .inl (Decimal.isDigit_of_mem_padded digit)
    · exact .inr (.inl rfl)
    · exact .inl (Decimal.isDigit_of_mem_padded digit)

theorem Writes.isBlank {time : Time} {text : List Char} (writes : time.Writes text) :
    ∀ c ∈ text, Blank.isBlank c = false := by
  intro c member
  rcases writes.clock.2 c member with digit | rfl | rfl
  · exact Blank.isBlank_of_isDigit digit
  · rfl
  · rfl

theorem Writes.isSolid {time : Time} {text : List Char} (writes : time.Writes text) : Blank.IsSolid text where
  filled := List.ne_nil_of_mem writes.clock.1
  first c found := writes.isBlank c (List.mem_of_mem_head? found)
  last c found := writes.isBlank c (List.mem_of_mem_getLast? found)

end Time

/-! ## What a text is read as -/

namespace Layout

theorem fractionGroup_eq {value length : Nat} {milli micro nano : UInt16}
    (whole : value * 10 ^ (9 - length) = milli.toNat * 1000000 + micro.toNat * 1000 + nano.toNat)
    (least : milli.toNat < 1000) (less : micro.toNat < 1000) (few : nano.toNat < 1000) :
    fractionGroup value length 0 = milli ∧ fractionGroup value length 3 = micro ∧
      fractionGroup value length 6 = nano := by
  have groups : (milli.toNat * 1000000 + micro.toNat * 1000 + nano.toNat) / 1000000 % 1000 = milli.toNat ∧
      (milli.toNat * 1000000 + micro.toNat * 1000 + nano.toNat) / 1000 % 1000 = micro.toNat ∧
        (milli.toNat * 1000000 + micro.toNat * 1000 + nano.toNat) / 1 % 1000 = nano.toNat := by omega
  have group (place : Nat) : fractionGroup value length place =
      UInt16.ofNat ((milli.toNat * 1000000 + micro.toNat * 1000 + nano.toNat) / 10 ^ (6 - place) % 1000) := by
    rw [← whole]
    rfl
  refine ⟨(group 0).trans ?_, (group 3).trans ?_, (group 6).trans ?_⟩
  · exact (congrArg UInt16.ofNat groups.1).trans UInt16.ofNat_toNat
  · exact (congrArg UInt16.ofNat groups.2.1).trans UInt16.ofNat_toNat
  · exact (congrArg UInt16.ofNat groups.2.2).trans UInt16.ofNat_toNat

theorem finerCounts_padded {most n : Nat} {rest : List Char} (fits : n < 10 ^ 3) (ends : EndsRun rest) :
    finerCounts (most + 1) (':' :: (Decimal.padded 3 n ++ rest)) =
      (finerCounts most rest).map fun (values, rest) => (n :: values, rest) := by
  have read : numberOf [1, 2, 3] (Decimal.padded 3 n ++ rest) = some (n, rest) :=
    numberOf_padded (by decide) (by decide) fits ends
  simp only [finerCounts, after, if_true, read, Option.bind_eq_bind, Option.bind_some]
  cases finerCounts most rest <;> rfl

section
variable {time : Time} (full : time.IsFull)
include full

theorem time_clockText {rest : List Char} (ends : EndsRun rest) :
    Layout.time (time.clockText rest) = withFiner (Time.ofSeconds time.hour time.minute time.second) rest := by
  obtain ⟨hour, minute, second, -⟩ := full.bounds
  unfold Layout.time Time.clockText
  rw [numberOf_padded (by decide) (by decide) hour (by rintro _ ⟨⟩; rfl)]
  simp only [Option.bind_eq_bind, Option.bind_some, after, if_true]
  rw [numberOf_padded (by decide) (by decide) minute (by rintro _ ⟨⟩; rfl)]
  simp only [Option.bind_some, List.isEmpty_cons, Bool.false_eq_true, if_false, if_true]
  rw [numberOf_padded (by decide) (by decide) second ends]
  simp only [Option.bind_some, UInt8.ofNat_toNat]
  rfl

/-- Of nine digits, of which zeros at the end may be missing, three are the milliseconds and so on. -/
theorem withFiner_fraction {digits : List Char} {zeros : Nat} (written : digits ≠ [])
    (completed : digits ++ List.replicate zeros '0' = time.fractionText) :
    withFiner (Time.ofSeconds time.hour time.minute time.second) ('.' :: digits) = some time := by
  obtain ⟨-, -, -, milli, micro, nano⟩ := full.bounds
  have length : digits.length + zeros = 9 := by
    rw [← full.length_fractionText, ← completed, List.length_append, List.length_replicate]
  have value : Nat.ofDigitChars 10 digits 0 * 10 ^ (9 - digits.length) =
      time.millisecond.toNat * 1000000 + time.microsecond.toNat * 1000 + time.nanosecond.toNat := by
    rw [← full.ofDigitChars_fractionText, ← completed, Nat.ofDigitChars_append, Nat.ofDigitChars_replicate_zero,
      Nat.mul_comm]
    congr 2
    omega
  have all : ∀ c ∈ digits, c.isDigit := fun c member =>
    Time.isDigit_of_mem_fractionText (completed ▸ List.mem_append_left _ member)
  unfold withFiner
  simp only [after, if_true]
  obtain ⟨first, second, third⟩ := fractionGroup_eq value milli micro nano
  rw [number_eq all]
  dsimp only
  rw [first, second, third, if_neg (by simp [written]; omega)]
  rfl

theorem withFiner_counts :
    withFiner (Time.ofSeconds time.hour time.minute time.second) (':' :: time.countsText) = some time := by
  obtain ⟨-, -, -, milli, micro, nano⟩ := full.bounds
  have last : finerCounts 1 (':' :: (Decimal.padded 3 time.nanosecond.toNat ++ [])) = _ := finerCounts_padded nano nofun
  rw [List.append_nil] at last
  unfold withFiner Time.countsText
  rw [finerCounts_padded milli (by rintro _ ⟨⟩; rfl), finerCounts_padded micro (by rintro _ ⟨⟩; rfl), last]
  simp [after, finerCounts, Time.ofSeconds]

theorem time_writes {text : List Char} (writes : time.Writes text) : Layout.time text = some time := by
  cases writes with
  | fraction written completed =>
    rw [time_clockText full (by rintro _ ⟨⟩; rfl)]
    exact withFiner_fraction full written completed
  | counts =>
    rw [time_clockText full (by rintro _ ⟨⟩; rfl)]
    exact withFiner_counts full

end

end Layout

theorem Time.ofText_writes {time : Time} {text : List Char} (full : time.IsFull) (writes : time.Writes text) :
    ofText (String.ofList text) = .ok time := by
  unfold ofText
  rw [String.toList_ofList, Blank.trim_eq writes.isSolid]
  split
  case h_1 => exact absurd rfl writes.isSolid.filled
  case h_2 => rw [Layout.time_writes full writes, Option.filter_some, if_pos full.valid]

end MarketWire
