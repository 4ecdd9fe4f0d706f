import MarketWire.Bytes.Framed
import MarketWire.Proofs.Programs

/-! Writers as appending bytes.

An output is seen through its bytes and its capacity. A writer that only extends an output leaves
alone what stood before it, also when it fails, so the output can be cut back; what it appends when
it succeeds is stated once for each writer and put together along the structure of the writer.
-/

set_option autoImplicit false

namespace MarketWire

namespace Output

theorem length_toList (output : Output) : output.toList.length = output.position :=
  Array.length_toList

theorem eq_of_toList {first second : Output} (bytes : first.toList = second.toList)
    (capacity : first.capacity = second.capacity) : first = second := by
  cases first with
  | mk written room fits =>
    cases second with
    | mk other otherRoom otherFits =>
      simp only at capacity
      subst capacity
      have same : written = other := Array.toList_inj.mp bytes
      subst same
      rfl

theorem toList_cut (output : Output) (position : Nat) :
    (output.cut position).toList = output.toList.take position := by
  cases output
  simp [cut, toList, Array.shrink_eq_take]

theorem capacity_cut (output : Output) (position : Nat) :
    (output.cut position).capacity = output.capacity := by
  cases output
  rfl

/-- An output that was only extended is cut back to what it was. -/
theorem cut_eq {before after : Output} (capacity : after.capacity = before.capacity)
    (extended : before.toList <+: after.toList) : after.cut before.position = before := by
  apply eq_of_toList
  · rw [toList_cut, ← length_toList]
    exact (List.prefix_iff_eq_take.mp extended).symm
  · rw [capacity_cut, capacity]

theorem toList_empty (capacity : Nat) : (empty capacity).toList = [] := rfl

end Output

namespace Write

/-- Whatever comes of a writer, what stood before stays. When it succeeds, it has appended bytes of
which something is known, given the position at which it started and its answer. -/
def Extends {α : Type} (writer : Write α) (post : Nat → α → Bytes → Prop) : Prop :=
  ∀ output, match writer output with
    | .ok value after => after.capacity = output.capacity ∧
        ∃ added, after.toList = output.toList ++ added ∧ post output.position value added
    | .error _ after => after.capacity = output.capacity ∧ output.toList <+: after.toList

def Emits {α : Type} (writer : Write α) (form : Bytes) : Prop :=
  Extends writer fun _ _ added => added = form

section
variable {α β : Type} {writer : Write α} {post : Nat → α → Bytes → Prop}

theorem Extends.of_ok (extending : Extends writer post) {output after : Output} {value : α}
    (h : writer output = .ok value after) :
    after.capacity = output.capacity ∧
      ∃ added, after.toList = output.toList ++ added ∧ post output.position value added := by
  have known := extending output
  rw [h] at known
  exact known

theorem Extends.of_error (extending : Extends writer post) {output after : Output}
    {error : EncodeError} (h : writer output = .error error after) :
    after.capacity = output.capacity ∧ output.toList <+: after.toList := by
  have known := extending output
  rw [h] at known
  exact known

theorem Extends.mono {weaker : Nat → α → Bytes → Prop} (extending : Extends writer post)
    (implies : ∀ start value added, post start value added → weaker start value added) :
    Extends writer weaker := by
  intro output
  cases h : writer output with
  | ok value after =>
    obtain ⟨capacity, added, bytes, known⟩ := extending.of_ok h
    exact ⟨capacity, added, bytes, implies _ _ _ known⟩
  | error error after => exact extending.of_error h

theorem Extends.and {second : Nat → α → Bytes → Prop} (known : Extends writer post)
    (also : Extends writer second) :
    Extends writer fun start value added => post start value added ∧ second start value added := by
  intro output
  cases h : writer output with
  | ok value after =>
    obtain ⟨capacity, added, bytes, told⟩ := known.of_ok h
    obtain ⟨-, same, otherBytes, otherTold⟩ := also.of_ok h
    obtain rfl := List.append_cancel_left (bytes.symm.trans otherBytes)
    exact ⟨capacity, added, bytes, told, otherTold⟩
  | error error after => exact known.of_error h

theorem Extends.pure (value : α) :
    Extends (Pure.pure value : Write α) fun _ answer added => answer = value ∧ added = [] := by
  intro output
  exact ⟨rfl, [], (List.append_nil _).symm, rfl, rfl⟩

theorem Extends.throw (error : EncodeError) : Extends (MonadExcept.throw error : Write α) post := by
  intro output
  exact ⟨rfl, List.prefix_rfl⟩

theorem Extends.bind {next : α → Write β} {nextPost : α → Nat → β → Bytes → Prop}
    (first : Extends writer post) (behind : ∀ value, Extends (next value) (nextPost value)) :
    Extends (writer >>= next) fun start answer added => ∃ value head tail,
      post start value head ∧ nextPost value (start + head.length) answer tail ∧
        added = head ++ tail := by
  intro output
  cases h : writer output with
  | error error after =>
    rw [Program.bind_error h]
    exact first.of_error h
  | ok value middle =>
    obtain ⟨capacity, head, bytes, known⟩ := first.of_ok h
    -- The second writer starts where the first one has stopped.
    have position : middle.position = output.position + head.length := by
      rw [← Output.length_toList, bytes, List.length_append, Output.length_toList]
    rw [Program.bind_ok h]
    cases h' : next value middle with
    | error error after =>
      obtain ⟨sameCapacity, kept⟩ := (behind value).of_error h'
      have before : output.toList <+: middle.toList := bytes ▸ List.prefix_append _ _
      exact ⟨sameCapacity.trans capacity, before.trans kept⟩
    | ok answer after =>
      obtain ⟨sameCapacity, tail, tailBytes, tailKnown⟩ := (behind value).of_ok h'
      refine ⟨sameCapacity.trans capacity, head ++ tail, ?_, value, head, tail, known, ?_, rfl⟩
      · rw [tailBytes, bytes, List.append_assoc]
      · exact position ▸ tailKnown

theorem Emits.then_extends {next : α → Write β} {head : Bytes} {nextPost : Nat → β → Bytes → Prop}
    (first : Emits writer head) (behind : ∀ value, Extends (next value) nextPost) :
    Extends (writer >>= next) fun start answer added => ∃ tail,
      nextPost (start + head.length) answer tail ∧ added = head ++ tail := by
  apply (Extends.bind first behind).mono
  rintro _ _ _ ⟨_, _, tail, rfl, known, rfl⟩
  exact ⟨tail, known, rfl⟩

theorem Emits.bind {next : α → Write β} {head tail : Bytes} (first : Emits writer head)
    (behind : ∀ value, Emits (next value) tail) : Emits (writer >>= next) (head ++ tail) := by
  apply (first.then_extends behind).mono
  rintro _ _ _ ⟨_, rfl, rfl⟩
  rfl

theorem Emits.pure (value : α) : Emits (Pure.pure value : Write α) [] :=
  (Extends.pure value).mono fun _ _ _ known => known.2

theorem Extends.ite {condition : Prop} [Decidable condition] {other : Write α}
    (holds : condition → Extends writer post) (fails : ¬ condition → Extends other post) :
    Extends (if condition then writer else other) post := by
  by_cases h : condition
  · rw [if_pos h]
    exact holds h
  · rw [if_neg h]
    exact fails h

theorem Extends.atomic (extending : Extends writer post) : Extends (Write.atomic writer) post := by
  intro output
  unfold Write.atomic atomicFrom
  cases h : writer output with
  | ok value after =>
    exact extending.of_ok h
  | error error after =>
    obtain ⟨capacity, kept⟩ := extending.of_error h
    change (after.cut output.position).capacity = output.capacity ∧ _
    rw [Output.cut_eq capacity kept]
    exact ⟨rfl, List.prefix_rfl⟩

theorem atomic_ok {output after : Output} {value : α} (h : writer output = .ok value after) :
    Write.atomic writer output = .ok value after := by
  unfold Write.atomic atomicFrom
  rw [h]

theorem succeeds_of_atomic {output after : Output} {value : α}
    (h : Write.atomic writer output = .ok value after) : Program.succeeds writer output := by
  unfold Write.atomic atomicFrom at h
  cases h' : writer output with
  | ok value middle => exact Program.succeeds_of_ok h'
  | error error middle =>
    rw [h'] at h
    cases h

/-- An atomic writer that fails leaves everything as it was. -/
theorem Extends.atomic_error (extending : Extends writer post) {output after : Output}
    {error : EncodeError} (h : Write.atomic writer output = .error error after) :
    after = output := by
  unfold Write.atomic atomicFrom at h
  cases h' : writer output with
  | ok value middle =>
    rw [h'] at h
    cases h
  | error cause middle =>
    rw [h'] at h
    cases h
    obtain ⟨capacity, kept⟩ := extending.of_error h'
    exact Output.cut_eq capacity kept

theorem Extends.of_toBytes {writer : Write Unit} {post : Nat → Unit → Bytes → Prop}
    (extending : Extends writer post) {capacity : Nat} {form : Bytes}
    (h : toBytes capacity writer = .ok form) : post 0 () form := by
  unfold toBytes at h
  cases h' : writer (.empty capacity) with
  | error error after =>
    rw [h'] at h
    cases h
  | ok value after =>
    rw [h'] at h
    cases h
    obtain ⟨-, added, bytes, known⟩ := extending.of_ok h'
    rw [Output.toList_empty, List.nil_append] at bytes
    exact bytes ▸ known

end

/-! ## Single writers -/

theorem position_extends : Extends position fun start value added => value = start ∧ added = [] :=
  fun _ => ⟨rfl, [], (List.append_nil _).symm, rfl, rfl⟩

theorem room_emits : Emits room [] :=
  fun _ => ⟨rfl, [], (List.append_nil _).symm, rfl⟩

theorem ensure_emits (count : Nat) : Emits (ensure count) [] := by
  intro output
  unfold ensure
  by_cases fits : count ≤ output.room
  · rw [if_pos fits]
    exact ⟨rfl, [], (List.append_nil _).symm, rfl⟩
  · rw [if_neg fits]
    exact ⟨rfl, List.prefix_rfl⟩

theorem bytes_emits (added : Bytes) : Emits (bytes added) added := by
  rintro ⟨written, capacity, size_le⟩
  unfold bytes
  dsimp only
  by_cases fits : added.length ≤ capacity - written.size
  · rw [dif_pos fits]
    exact ⟨rfl, added, Array.toList_appendList, rfl⟩
  · rw [dif_neg fits]
    exact ⟨rfl, List.prefix_rfl⟩

theorem byte_emits (value : UInt8) : Emits (byte value) [value] := bytes_emits _

theorem number_emits (width n : Nat) : Emits (number width n) (Bytes.ofNat width n) :=
  bytes_emits _

theorem reserve_extends (count : Nat) :
    Extends (reserve count) fun start value added =>
      value = start ∧ added = List.replicate count 0 := by
  apply (Extends.bind position_extends fun start => Extends.bind (ensure_emits count) fun _ =>
    Extends.bind (bytes_emits _) fun _ => Extends.pure start).mono
  rintro _ _ _ ⟨_, _, _, ⟨rfl, rfl⟩, ⟨_, _, _, rfl, ⟨_, _, _, rfl, ⟨rfl, rfl⟩, rfl⟩, rfl⟩, rfl⟩
  exact ⟨rfl, by simp⟩

theorem each_extends {α : Type} {writer : α → Write Unit} {form : α → Bytes} {Fits : α → Prop}
    {values : List α}
    (extending : ∀ value ∈ values, Extends (writer value) fun _ _ added =>
      added = form value ∧ Fits value) :
    Extends (each writer values) fun _ _ added =>
      added = values.flatMap form ∧ ∀ value ∈ values, Fits value := by
  induction values with
  | nil => exact (Emits.pure ()).mono fun _ _ _ known => ⟨known, by simp⟩
  | cons value rest ih =>
    apply (Extends.bind (extending value List.mem_cons_self) fun _ =>
      ih fun other member => extending other (List.mem_cons_of_mem _ member)).mono
    rintro _ _ _ ⟨_, _, _, ⟨rfl, fits⟩, ⟨rfl, others⟩, rfl⟩
    exact ⟨List.flatMap_cons.symm, List.forall_mem_cons.mpr ⟨fits, others⟩⟩

/-! ## Changes of what is written -/

theorem toList_overwrite {written : Array UInt8} {before old replacement behind : Bytes}
    (bytes : written.toList = before ++ old ++ behind) (same : old.length = replacement.length) :
    (overwrite written before.length replacement).toList = before ++ replacement ++ behind := by
  induction replacement generalizing written before old with
  | nil =>
    rw [List.length_eq_zero_iff.mp same] at bytes
    exact bytes
  | cons byte rest ih =>
    match old, same with
    -- Each byte that is replaced joins what stands before the other ones.
    | first :: others, same =>
      have patched : (written.setIfInBounds before.length byte).toList
          = (before ++ [byte]) ++ others ++ behind := by
        rw [Array.toList_setIfInBounds, bytes]
        simp
      have step := ih patched (Nat.succ.inj same)
      rw [List.length_append, List.length_singleton] at step
      rw [overwrite, step]
      simp

theorem patch_ok (replacement : Bytes) {output : Output} {before old behind : Bytes}
    (bytes : output.toList = before ++ old ++ behind) (same : old.length = replacement.length) :
    ∃ after, patch before.length replacement output = .ok () after ∧
      after.capacity = output.capacity ∧ after.toList = before ++ replacement ++ behind := by
  rcases output with ⟨written, capacity, fits⟩
  -- What is replaced lies within the bytes, so the patch is not refused.
  have enough : before.length + replacement.length ≤ written.size := by
    have length := congrArg List.length bytes
    simp only [Output.toList, Array.length_toList, List.length_append] at length
    omega
  exact ⟨_, if_pos enough, rfl, toList_overwrite bytes same⟩

theorem shiftLeft_ok {output : Output} {before gap behind : Bytes}
    (bytes : output.toList = before ++ gap ++ behind) :
    ∃ after, shiftLeft before.length gap.length output = .ok () after ∧
      after.capacity = output.capacity ∧ after.toList = before ++ behind := by
  rcases output with ⟨written, capacity, fits⟩
  have length := congrArg List.length bytes
  simp only [Output.toList, Array.length_toList, List.length_append] at length bytes
  have inside : before.length + gap.length ≤ written.size := by omega
  refine ⟨_, dif_pos inside, rfl, ?_⟩
  -- Both sides of the gap are cut out of the old bytes and put together.
  have front : written.toList.take before.length = before := by simp [bytes]
  have back : written.toList.drop (before.length + gap.length) = behind := by
    rw [bytes, ← List.length_append, List.drop_left]
  simp only [Output.toList, Array.toList_append, Array.toList_shrink, Array.toList_extract,
    List.extract_eq_take_drop, front, back]
  rw [List.take_of_length_le (by omega)]

end Write

end MarketWire
