import MarketWire.Proofs.Payloads
import MarketWire.Proofs.WholeWrites

/-! Times of day in a fixed width.

A fixed width takes the components of a time that it has room for, whatever the others are. Read back, the others are
zero, or blank where the hour is. So a valid time comes back exactly if it is blank or the components without room are
zero; the others are lost, though a number that has no room is refused.
-/

set_option autoImplicit false

namespace MarketWire

namespace Time

theorem heldBy_kept {time : Time} (hour : time.hour ≠ blankByte) {length : Nat} (known : length ∈ lengths) :
    (time.kept length).HeldBy length := by
  have zeros : time.leftOut = ofSeconds 0 0 0 := if_neg hour
  simp only [lengths, List.mem_cons, List.not_mem_nil, or_false] at known
  unfold HeldBy kept
  rw [zeros]
  rcases known with rfl | rfl | rfl | rfl | rfl <;> simp [ofSeconds]

theorem kept_eq_iff {time : Time} (valid : time.isValid) {length : Nat} (known : length ∈ lengths) :
    time.kept length = time ↔ time.isBlank ∨ time.HeldBy length := by
  constructor
  · intro same
    by_cases noHour : time.hour = blankByte
    · exact .inl (decide_eq_true (eq_blank_of_isValid valid noHour))
    · exact .inr (same ▸ heldBy_kept noHour known)
  · rintro (absent | held)
    · obtain rfl : time = blank := of_decide_eq_true absent
      exact kept_blank known
    · exact kept_eq valid known held

end Time

namespace Primitive

def time? : Primitive → Option Time
  | .time value => some value
  | .dateTime both => some both.time
  | _ => none

def withTime (time : Time) : Primitive → Primitive
  | .time _ => .time time
  | .dateTime both => .dateTime ⟨both.date, time⟩
  | value => value

/-- The bytes of a width that a value has for its time of day. -/
def timeRoom (width : Nat) : Primitive → Nat
  | .dateTime _ => width - Date.wireLength
  | _ => width

section
variable {value : Primitive} {time : Time} {type : DataType} {width : Nat}

theorem kind_of_time (holds : value.time? = some time) :
    value.isProper ∧ (∀ own, value ≠ .blank own) ∧ ¬ value.isPlain := by
  cases value with
  | time | dateTime => exact ⟨rfl, nofun, nofun⟩
  | _ => cases holds

theorem timeRoom_mem (holds : value.time? = some time) (native : value.dataType = type.base)
    (layout : type.setLayout? = some (.fixed width)) : value.timeRoom width ∈ Time.lengths := by
  obtain ⟨-, -, -, -, alone, both⟩ := width_of_layout layout
  cases value with
  | time value => exact alone native.symm
  | dateTime value => exact (both native.symm).2
  | _ => cases holds

theorem length_timeForm (holds : value.time? = some time) (native : value.dataType = type.base)
    (layout : type.setLayout? = some (.fixed width)) : (value.fixedForm width).length = width := by
  obtain ⟨proper, notBlank, other⟩ := kind_of_time holds
  exact length_fixedForm layout proper notBlank other native

theorem encodeSet_time_appends (holds : value.time? = some time) (native : value.dataType = type.base)
    (layout : type.setLayout? = some (.fixed width)) : (value.encodeSet type).Appends (value.fixedForm width) := by
  have fills := length_timeForm holds native layout
  unfold encodeSet
  rw [layout]
  change (value.encodeFixed type width).Appends _
  unfold encodeFixed
  rw [← native]
  cases value with
  | time | dateTime => exact (Write.bytes_prints _).ensure_appends fills.symm
  | _ => cases holds

theorem readSet_timeForm (holds : value.time? = some time) (native : value.dataType = type.base)
    (layout : type.setLayout? = some (.fixed width)) (rest : Bytes) :
    readSet type (value.fixedForm width ++ rest) = .ok (value.returnedIn width) rest := by
  obtain ⟨proper, notBlank, other⟩ := kind_of_time holds
  unfold readSet
  rw [layout]
  exact Read.ofExcept_ok (Read.bytes_append (length_timeForm holds native layout) rest)
    (decodeFixed_fixedForm layout proper notBlank other native)

theorem withTime_eq_iff (holds : value.time? = some time) {other : Time} :
    value.withTime other = value ↔ other = time := by
  cases value with
  | time value =>
    cases holds
    exact Iff.of_eq (Primitive.time.injEq _ _)
  | dateTime both =>
    cases holds
    refine ⟨fun same => congrArg DateTime.time (Primitive.dateTime.inj same), fun same => ?_⟩
    exact congrArg (fun time => Primitive.dateTime ⟨both.date, time⟩) same
  | _ => cases holds

theorem returnedIn_eq_withTime (holds : value.time? = some time) :
    value.returnedIn width = value.withTime (time.kept (value.timeRoom width)) := by
  cases value with
  | time | dateTime =>
    cases holds
    rfl
  | _ => cases holds

/-- A value with a valid time of day always has a form in a fixed width of its kind, of exactly so many bytes. The form
gives the value back exactly if its time of day is blank or has zeros where the width has no room. -/
theorem encodeSet_keeps_time_iff (holds : value.time? = some time) (valid : time.isValid)
    (native : value.dataType = type.base) (layout : type.setLayout? = some (.fixed width)) :
    ∃ form, form.length = width ∧ (value.encodeSet type).Appends form ∧
      (∀ rest, readSet type (form ++ rest) = .ok (value.returnedIn width) rest) ∧
      (value.returnedIn width = value ↔ time.isBlank ∨ time.HeldBy (value.timeRoom width)) := by
  refine ⟨_, length_timeForm holds native layout, encodeSet_time_appends holds native layout,
    readSet_timeForm holds native layout, ?_⟩
  rw [returnedIn_eq_withTime holds, withTime_eq_iff holds]
  exact Time.kept_eq_iff valid (timeRoom_mem holds native layout)

/-- A quarter of a second more than half past nine is lost in seven bytes and comes back from nine. -/
theorem encodeSet_keeps_time_iff_quarter :
    let moment : DateTime := ⟨⟨1, 2, 2020⟩, ⟨9, 30, 0, 250, 0, 0⟩⟩
    moment.time.isValid ∧
      (∃ form, form.length = 7 ∧ ((dateTime moment).encodeSet .dateTime7).Appends form ∧
        ∀ rest, ∃ found ≠ dateTime moment, readSet .dateTime7 (form ++ rest) = .ok found rest) ∧
      ∃ form, form.length = 9 ∧ ((dateTime moment).encodeSet .dateTime9).Appends form ∧
        ∀ rest, readSet .dateTime9 (form ++ rest) = .ok (dateTime moment) rest := by
  intro moment
  have valid : moment.time.isValid := by decide
  have holds : (dateTime moment).time? = some moment.time := rfl
  have shortLayout : DataType.dateTime7.setLayout? = some (.fixed 7) := rfl
  have longLayout : DataType.dateTime9.setLayout? = some (.fixed 9) := rfl
  obtain ⟨short, seven, shortAppends, shortReads, lost⟩ := encodeSet_keeps_time_iff holds valid rfl shortLayout
  obtain ⟨long, nine, longAppends, longReads, kept⟩ := encodeSet_keeps_time_iff holds valid rfl longLayout
  refine ⟨valid, ⟨short, seven, shortAppends, fun rest => ⟨_, ?_, shortReads rest⟩⟩, long, nine, longAppends, ?_⟩
  · exact mt lost.mp (by unfold Time.HeldBy; decide)
  · rw [kept.mpr (.inr (by unfold Time.HeldBy; decide))] at longReads
    exact longReads

/-- Not every valid time is stored exactly or refused: four milliseconds more than 1:02:03 are dropped in three
bytes. -/
theorem components_are_dropped : ¬ ∀ (value : Primitive) (time : Time) (type : DataType) (width : Nat)
    (output : Output), value.time? = some time → time.isValid → value.dataType = type.base →
      type.setLayout? = some (.fixed width) →
      (∃ needed available left, value.encodeSet type output = .error (.bufferTooSmall needed available) left) ∨
      (∃ reason left, value.encodeSet type output = .error (.invalidValue reason) left) ∨
      ∃ after added, value.encodeSet type output = .ok () after ∧ after.toList = output.toList ++ added ∧
        added.length = width ∧ readSet type added = .ok value [] := by
  intro all
  let value : Primitive := .time ⟨1, 2, 3, 4, 0, 0⟩
  have holds : value.time? = some ⟨1, 2, 3, 4, 0, 0⟩ := rfl
  have layout : DataType.time3.setLayout? = some (.fixed 3) := rfl
  obtain ⟨after, written, bytes⟩ := (encodeSet_time_appends holds rfl layout).whole (.empty 3) (by decide)
  have reads := readSet_timeForm holds rfl layout []
  rcases all value _ .time3 3 (.empty 3) holds (by decide) rfl layout with
    ⟨_, _, _, failed⟩ | ⟨_, _, failed⟩ | ⟨_, added, again, same, -, back⟩
  · exact nomatch written.symm.trans failed
  · exact nomatch written.symm.trans failed
  · cases written.symm.trans again
    obtain rfl := List.append_cancel_left (bytes.symm.trans same)
    rw [List.append_nil, back] at reads
    have kept : value = value.returnedIn 3 := (EStateM.Result.ok.inj reads).1
    exact absurd kept (by decide)

end

end Primitive

end MarketWire
