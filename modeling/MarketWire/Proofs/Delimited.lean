import MarketWire.Container.Table
import MarketWire.Proofs.Frames

/-! Readers that know where their value ends.

Such a reader takes the same bytes whatever stands behind them, and of fewer bytes it only tells that
there are too few.
-/

set_option autoImplicit false

namespace MarketWire

namespace Read

variable {α β : Type}

def Overruns (reader : Read α) (bytes : Bytes) : Prop :=
  ∃ needed available left, reader bytes = .error (.overrun needed available) left

/-- A reader finds a value in certain bytes in front of all others, and none in a part of them. -/
structure Delimits (reader : Read α) (value : α) (taken : Bytes) : Prop where
  front : ∀ rest, reader (taken ++ rest) = .ok value rest
  cut : ∀ n < taken.length, reader.Overruns (taken.take n)

/-- Wherever a reader finds a value, it delimits it. -/
structure Delimited (reader : Read α) : Prop where
  delimits : ∀ {bytes value rest}, reader bytes = .ok value rest →
    ∃ taken, bytes = taken ++ rest ∧ reader.Delimits value taken

section
variable {reader : Read α} {next : α → Read β}

theorem Overruns.bind {bytes : Bytes} (overruns : reader.Overruns bytes) (next : α → Read β) :
    (reader >>= next).Overruns bytes := by
  obtain ⟨needed, available, left, failed⟩ := overruns
  exact ⟨needed, available, left, Program.bind_error failed⟩

theorem Overruns.of_map {f : α → β} {bytes : Bytes} (overruns : (f <$> reader).Overruns bytes) :
    reader.Overruns bytes := by
  obtain ⟨needed, available, left, failed⟩ := overruns
  cases found : reader bytes with
  | ok value rest => exact nomatch failed.symm.trans (Program.map_ok found)
  | error error rest =>
    rw [map_eq_pure_bind, Program.bind_error found] at failed
    cases failed
    exact ⟨needed, available, left, found⟩

theorem Overruns.of_bind {bytes : Bytes} (overruns : (reader >>= next).Overruns bytes) :
    reader.Overruns bytes ∨ ∃ value rest, reader bytes = .ok value rest ∧ (next value).Overruns rest := by
  obtain ⟨needed, available, left, failed⟩ := overruns
  cases found : reader bytes with
  | ok value rest =>
    rw [Program.bind_ok found] at failed
    exact .inr ⟨value, rest, rfl, needed, available, left, failed⟩
  | error error rest =>
    rw [Program.bind_error found] at failed
    cases failed
    exact .inl ⟨needed, available, left, found⟩

theorem Delimits.bind {value : α} {answer : β} {first second : Bytes} (reads : reader.Delimits value first)
    (behind : (next value).Delimits answer second) :
    (reader >>= next).Delimits answer (first ++ second) where
  front rest := by
    rw [List.append_assoc, Program.bind_ok (reads.front _)]
    exact behind.front rest
  cut n few := by
    by_cases inFirst : n < first.length
    · rw [List.take_append_of_le_length (Nat.le_of_lt inFirst)]
      exact (reads.cut n inFirst).bind next
    · obtain ⟨more, rfl⟩ := Nat.exists_eq_add_of_le (Nat.le_of_not_lt inFirst)
      obtain ⟨needed, available, left, failed⟩ := behind.cut more (by
        rw [List.length_append] at few
        exact Nat.lt_of_add_lt_add_left few)
      refine ⟨needed, available, left, ?_⟩
      rw [List.take_length_add_append, Program.bind_ok (reads.front _), failed]

/-- What a reader finds is found again as long as it is not cut off. -/
theorem Delimits.take {value : α} {taken rest bytes : Bytes} (delimits : reader.Delimits value taken)
    (joined : bytes = taken ++ rest) (k : Nat) (whole : taken.length ≤ k) :
    reader (bytes.take k) = .ok value (rest.take (k - taken.length)) := by
  obtain ⟨more, rfl⟩ := Nat.exists_eq_add_of_le whole
  rw [joined, List.take_length_add_append, Nat.add_sub_cancel_left]
  exact delimits.front _

theorem Delimits.pure (value : α) : (pure value : Read α).Delimits value [] where
  front _ := rfl
  cut _ none := absurd none (Nat.not_lt_zero _)

theorem Delimited.of_front (reads : reader.Delimited) {value : α} {bytes : Bytes}
    (front : ∀ rest, reader (bytes ++ rest) = .ok value rest) : reader.Delimits value bytes := by
  obtain ⟨taken, joined, delimits⟩ := reads.delimits (front [])
  rw [List.append_nil, List.append_nil] at joined
  exact joined ▸ delimits

theorem Delimited.pure (value : α) : (Pure.pure value : Read α).Delimited := by
  constructor
  rintro bytes _ _ ⟨⟩
  exact ⟨[], rfl, .pure value⟩

theorem Delimited.throw (error : DecodeError) : (throw error : Read α).Delimited := ⟨nofun⟩

theorem Delimited.bind (reads : reader.Delimited) (behind : ∀ value, (next value).Delimited) :
    (reader >>= next).Delimited := by
  constructor
  intro bytes answer rest found
  obtain ⟨value, middle, first, second⟩ := Program.bind_eq_ok found
  obtain ⟨taken, rfl, delimits⟩ := reads.delimits first
  obtain ⟨more, rfl, others⟩ := (behind value).delimits second
  exact ⟨taken ++ more, (List.append_assoc ..).symm, delimits.bind others⟩

theorem Delimited.map (reads : reader.Delimited) (f : α → β) : (f <$> reader).Delimited := by
  rw [map_eq_pure_bind]
  exact reads.bind fun value => .pure (f value)

theorem Delimited.ite {condition : Prop} [Decidable condition] {other : Read α}
    (holds : condition → reader.Delimited) (fails : ¬ condition → other.Delimited) :
    (if condition then reader else other).Delimited := by
  split
  · exact holds ‹_›
  · exact fails ‹_›

theorem Delimited.when (condition : Bool) (reads : reader.Delimited) :
    (Read.when condition reader).Delimited := by
  cases condition with
  | false => exact .pure none
  | true => exact reads.map some

theorem ofExcept_delimited (result : Except DecodeError α) : (ofExcept result).Delimited := by
  cases result with
  | ok value => exact .pure value
  | error error => exact .throw error

end

theorem byte_delimited : byte.Delimited := by
  constructor
  intro bytes first rest found
  cases bytes with
  | nil => cases found
  | cons first bytes =>
    cases found
    refine ⟨[first], rfl, fun rest => rfl, fun n few => ?_⟩
    obtain rfl : n = 0 := Nat.lt_one_iff.mp few
    exact ⟨1, 0, [], rfl⟩

theorem bytes_delimited (count : Nat) : (bytes count).Delimited := by
  constructor
  intro bytes taken rest found
  obtain ⟨rfl, length⟩ := bytes_eq_ok found
  refine ⟨taken, rfl, bytes_append length, fun n few => ?_⟩
  cases read : Read.bytes count (taken.take n) with
  | ok value left =>
    obtain ⟨joined, enough⟩ := bytes_eq_ok read
    have same := congrArg List.length joined
    rw [List.length_take_of_le (Nat.le_of_lt few), List.length_append] at same
    omega
  | error error left =>
    obtain ⟨rfl, -, -⟩ := bytes_eq_error read
    exact ⟨_, _, left, read⟩

theorem number_delimited (width : Nat) : (number width).Delimited :=
  (bytes_delimited width).bind fun taken => .pure taken.toNat

theorem uint16_delimited : uint16.Delimited := (number_delimited 2).bind fun n => .pure (UInt16.ofNat n)

theorem int16_delimited : int16.Delimited := uint16_delimited.bind fun n => .pure n.toInt16

end Read

open Read (Delimited)

namespace Varying

theorem read15_delimited : read15.Delimited :=
  Read.byte_delimited.bind fun _ =>
    Delimited.ite (fun _ => .pure _) fun _ => Read.byte_delimited.bind fun _ => .pure _

theorem read16_delimited : read16.Delimited :=
  Read.byte_delimited.bind fun _ => Delimited.ite (fun _ => Read.number_delimited 2) fun _ => .pure _

theorem read30_delimited : read30.Delimited :=
  Read.byte_delimited.bind fun _ => (Read.bytes_delimited _).bind fun _ => .pure _

theorem read32_delimited : read32.Delimited :=
  Read.byte_delimited.bind fun _ => Delimited.ite (fun _ => Read.number_delimited 2) fun _ =>
    Delimited.ite (fun _ => Read.number_delimited 4) fun _ => .pure _

end Varying

theorem LengthForm.read_delimited (form : LengthForm) : form.read.Delimited := by
  cases form with
  | byte => exact Read.byte_delimited.bind fun _ => .pure _
  | bits15 => exact Varying.read15_delimited
  | bits16 => exact Varying.read16_delimited

theorem Read.framed_delimited (form : LengthForm) : (Read.framed form).Delimited :=
  form.read_delimited.bind Read.bytes_delimited

theorem Read.containerType_delimited : Read.containerType.Delimited := by
  refine Read.byte_delimited.bind fun code => ?_
  cases DataType.ofContainerCode? code with
  | none => exact .throw _
  | some type => exact .pure type

theorem Table.Header.read_delimited : Table.Header.read.Delimited :=
  Read.byte_delimited.bind fun _ => Read.containerType_delimited.bind fun _ =>
    (Delimited.when _ (Read.framed_delimited .bits15)).bind fun _ =>
      (Delimited.when _ (Read.framed_delimited .bits15)).bind fun _ =>
        (Delimited.when _ Varying.read30_delimited).bind fun _ =>
          Read.uint16_delimited.bind fun _ => .pure _

end MarketWire
