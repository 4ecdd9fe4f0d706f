import MarketWire.Proofs.Rooms

/-! Writers that append all of their bytes or none.

Such a writer has a form and fails only where there is no room for it. It looks for the room before it writes anything,
so the failure tells how much all of the form needs, and the output stays as it was.
-/

set_option autoImplicit false

namespace MarketWire

namespace Write

/-- A writer appends certain bytes as a whole, or tells that there is no room for them. -/
structure Appends (writer : Write Unit) (form : Bytes) : Prop where
  whole : ∀ output, form.length ≤ output.room →
    ∃ after, writer output = .ok () after ∧ after.toList = output.toList ++ form
  lacking : ∀ output, output.room < form.length →
    writer output = .error (.bufferTooSmall form.length output.room) output

section
variable {writer : Write Unit} {form : Bytes}

theorem Prints.whole (prints : Prints writer form) {output : Output} (enough : form.length ≤ output.room) :
    ∃ after, writer output = .ok () after ∧ after.toList = output.toList ++ form := by
  obtain ⟨_, after, written⟩ := (prints.needs output).of_room enough
  obtain ⟨-, added, bytes, rfl⟩ := prints.emits.of_ok written
  exact ⟨after, written, bytes⟩

theorem Prints.ensure_appends {next : Unit → Write Unit} (prints : Prints (next ()) form) {count : Nat}
    (all : count = form.length) : Appends (ensure count >>= next) form := by
  subst all
  constructor
  · intro output enough
    rw [Program.bind_ok (if_pos enough : ensure _ output = .ok () output)]
    exact prints.whole enough
  · intro output lack
    exact Program.bind_error (if_neg (Nat.not_le.mpr lack))

end

theorem bytes_appends (added : Bytes) : Appends (bytes added) added where
  whole _ enough := (bytes_prints added).whole enough
  lacking := by
    rintro ⟨written, capacity, size_le⟩ lack
    exact dif_neg (Nat.not_le.mpr lack)

theorem nothing_appends : Appends (pure ()) [] where
  whole output _ := ⟨output, rfl, (List.append_nil _).symm⟩
  lacking _ lack := absurd lack (Nat.not_lt_zero _)

theorem framed_appends {form : LengthForm} {payload : Bytes} (fits : payload.length ≤ form.max) :
    Appends (framed form payload) (form.frame payload) := by
  unfold framed
  rw [if_pos fits]
  refine ((bytes_prints _).bind fun _ => bytes_prints payload).ensure_appends ?_
  rw [LengthForm.frame, List.length_append]
  exact Nat.add_comm _ _

end Write

/-! ## Values -/

theorem Width.writeUnsigned_appends {width : Nat} (most : width ≤ 8) (n : UInt64) :
    (writeUnsigned n width).Appends (Bytes.ofNat width n.toNat) := by
  unfold writeUnsigned
  rw [if_pos most]
  exact Write.bytes_appends _

theorem Real.encode_appends (real : Real) : real.encode.Appends real.payload := by
  have eight : max (Width.ofSigned real.value) 1 ≤ 8 := by
    have most := Width.ofSigned_le_eight real.value
    omega
  unfold encode payload
  by_cases blank : real.blank
  · rw [if_pos blank, if_pos blank]
    exact Write.nothing_appends
  rw [if_neg blank, if_neg blank]
  by_cases infinite : real.hint.isNonFinite
  · rw [if_pos infinite, if_pos infinite]
    exact Write.bytes_appends _
  rw [if_neg infinite, if_neg infinite]
  have mantissa := Primitive.number_prints eight real.value.toUInt64
  refine ((Write.bytes_prints [real.hint.code]).bind fun _ => mantissa).ensure_appends ?_
  exact congrArg (· + 1) (Bytes.length_ofNat _ _).symm

theorem Primitive.encode_appends (value : Primitive) : value.encode.Appends value.payload := by
  have eight {width : Nat} (most : width ≤ 8) : max width 1 ≤ 8 := by omega
  cases value with
  | blank type => exact Write.nothing_appends
  | int n => exact Width.writeUnsigned_appends (eight (Width.ofSigned_le_eight n)) _
  | uint n => exact Width.writeUnsigned_appends (eight (Width.ofUnsigned_le_eight n)) _
  | enum n => exact Width.writeUnsigned_appends (eight (Width.ofUnsigned_le_eight n.toUInt64)) _
  | real value => exact value.encode_appends
  | _ => exact Write.bytes_appends _

end MarketWire
