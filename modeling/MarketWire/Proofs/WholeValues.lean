import MarketWire.Proofs.Payloads

/-! Values that come back as they were.

A value comes back from its payload, and from the form that its own type has in a set definition, which is the payload
behind its length. Two kinds of values come back as the blank of their type: a blank real and no bytes.
-/

set_option autoImplicit false

namespace MarketWire.Primitive

/-- A value that its payload can tell. The hint of a real has a meaning, and one that is not finite leaves no mantissa;
a time is valid; and bytes that have no meaning here are those of two types. -/
def IsStandard : Primitive → Prop
  | .blank type => type.isPrimitive
  | .real value =>
    (RealHint.ofCode? value.hint.code).isSome ∧ (value.hint.isNonFinite → value.value = 0)
  | .time value => value.isValid
  | .dateTime value => value.time.isValid
  | .encoded type _ => type = .qos ∨ type = .state
  | _ => True

/-- A value, or the blank of its type in place of a blank real and of no bytes. -/
def restored : Primitive → Primitive
  | .real value => if value.blank then .blank .real else .real value
  | .bytes type [] => .blank type.dataType
  | .encoded type [] => .blank type
  | value => value

variable {value : Primitive}

theorem isPrimitive_of_isStandard (standard : value.IsStandard) : value.dataType.isPrimitive := by
  cases value with
  | blank type => exact standard
  | bytes type content => cases type <;> rfl
  | encoded type payload => obtain rfl | rfl := standard <;> rfl
  | _ => rfl

theorem kept_wireLength {time : Time} (valid : time.isValid) : time.kept time.wireLength = time :=
  Time.kept_eq valid time.wireLength_mem time.heldBy_wireLength

theorem returned_eq_restored (standard : value.IsStandard) (told : ∀ type payload, value ≠ .encoded type payload) :
    value.returned = value.restored := by
  cases value with
  | real value =>
    obtain ⟨-, whole⟩ := standard
    change (if value.blank then Primitive.blank .real else .real value.kept) =
      if value.blank then .blank .real else .real value
    cases blank : value.blank with
    | true => rfl
    | false => rw [Real.kept_eq_self blank whole]
  | time value => exact congrArg Primitive.time (kept_wireLength standard)
  | dateTime value =>
    exact congrArg (fun time => Primitive.dateTime ⟨value.date, time⟩) (kept_wireLength standard)
  | bytes type content => cases content <;> rfl
  | encoded type payload => exact absurd rfl (told type payload)
  | _ => rfl

theorem decode_encoded {type : DataType} (kept : type = .qos ∨ type = .state) (payload : Bytes) :
    decode type payload = .ok (restored (.encoded type payload)) := by
  obtain rfl | rfl := kept <;> cases payload <;> rfl

theorem decode_payload_restored (standard : value.IsStandard) :
    decode value.dataType value.payload = .ok value.restored := by
  have primitive := isPrimitive_of_isStandard standard
  by_cases told : ∀ type payload, value ≠ .encoded type payload
  · rw [← returned_eq_restored standard told]
    have proper : value.isProper := by
      cases value with
      | real value => exact standard.1
      | encoded type payload => exact absurd rfl (told type payload)
      | _ => rfl
    exact decode_payload_proper proper primitive (DataType.framed_of_isPrimitive primitive).1.symm
  · cases value with
    | encoded type payload => exact decode_encoded standard payload
    | _ => exact absurd (fun _ _ => nofun) told

/-- What is written of a value gives it back: its payload alone, and the form of its own type in front of anything. -/
theorem written_restores (standard : value.IsStandard) (output : Output) {after : Output} :
    (value.encode output = .ok () after → ∃ added, after.toList = output.toList ++ added ∧
      decode value.dataType added = .ok value.restored) ∧
    (value.encodeSet value.dataType output = .ok () after → ∃ added, after.toList = output.toList ++ added ∧
      ∀ rest, readSet value.dataType (added ++ rest) = .ok value.restored rest) := by
  have decoded := decode_payload_restored standard
  constructor
  · intro written
    obtain ⟨-, added, bytes, rfl⟩ := value.encode_emits.of_ok written
    exact ⟨_, bytes, decoded⟩
  · intro written
    obtain ⟨-, added, bytes, rfl, fits⟩ := (encodeSet_extends value value.dataType).of_ok written
    have framed := (DataType.framed_of_isPrimitive (isPrimitive_of_isStandard standard)).2
    exact ⟨_, bytes, readSet_framed_of_decode framed fits decoded⟩

/-- A date without a day, with a time of which only hour and minute are set. -/
theorem written_restores_partly :
    let partly : DateTime := ⟨⟨0, 2, 2020⟩, { Time.blank with hour := 9, minute := 30 }⟩
    (dateTime partly).IsStandard ∧ ∃ after, (dateTime partly).encodeSet .dateTime (.empty 13) = .ok () after ∧
      readSet .dateTime (after.toList ++ [1, 2]) = .ok (.dateTime partly) [1, 2] := by
  intro partly
  have standard : (dateTime partly).IsStandard := (by decide : partly.time.isValid)
  have ran : Program.succeeds ((dateTime partly).encodeSet .dateTime) (.empty 13) := by decide +kernel
  obtain ⟨_, after, written⟩ := Program.exists_of_succeeds ran
  obtain ⟨added, bytes, reads⟩ := (written_restores standard (.empty 13)).2 written
  rw [Output.toList_empty, List.nil_append] at bytes
  exact ⟨standard, after, written, bytes ▸ reads [1, 2]⟩

end MarketWire.Primitive
