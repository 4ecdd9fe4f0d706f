import MarketWire.Container.ItemArray
import MarketWire.Proofs.Drafts
import MarketWire.Proofs.Primitives

/-! Arrays, written and read back.

The items of most arrays are laid out as the entries of a set definition, with a length each or in a
fixed width. Such an array comes back item by item from what its writer leaves.
-/

set_option autoImplicit false

namespace MarketWire

namespace Entries

variable {α ε ℓ : Type}

theorem readEach_flatMap {step : ℓ → Bytes → ε × Option Bytes} {label : α → ℓ} {form : α → Bytes}
    {entry : α → ε} {values : List α}
    (steps : ∀ value ∈ values, ∀ rest,
      step (label value) (form value ++ rest) = (entry value, some rest)) (rest : Bytes) :
    readEach step (values.map label) (values.flatMap form ++ rest) = values.map entry := by
  induction values with
  | nil => rfl
  | cons value others ih =>
    -- Each step leaves exactly the bytes with which the next one starts.
    have here := steps value List.mem_cons_self (others.flatMap form ++ rest)
    have behind := ih fun other member => steps other (List.mem_cons_of_mem _ member)
    rw [List.map_cons, readEach_cons, List.flatMap_cons, List.append_assoc, here, List.map_cons]
    exact congrArg _ behind

theorem read_flatMap {step : Bytes → ε × Option Bytes} {form : α → Bytes} {entry : α → ε}
    {values : List α}
    (steps : ∀ value ∈ values, ∀ rest, step (form value ++ rest) = (entry value, some rest)) :
    read step values.length (values.flatMap form) = values.map entry := by
  unfold read
  rw [← List.map_const', ← List.append_nil (values.flatMap form)]
  exact readEach_flatMap steps []

end Entries

namespace ItemArray

namespace Plan

/-- The items are laid out as entries of a set definition. -/
def IsUniform (plan : Plan) : Prop :=
  plan.length = 0 ∨ (fixedType? plan.type plan.length).isSome

instance (plan : Plan) : Decidable plan.IsUniform :=
  inferInstanceAs (Decidable (_ ∨ _))

def itemType (plan : Plan) : DataType :=
  if plan.length = 0 then plan.type else (fixedType? plan.type plan.length).getD plan.type

end Plan

def head (plan : Plan) : Bytes := [plan.type.code] ++ Varying.form16 plan.length

def form (plan : Plan) (items : List Primitive) : Bytes :=
  head plan ++ Bytes.ofNat 2 items.length ++ items.flatMap (·.setForm plan.itemType)

def Fits (plan : Plan) (items : List Primitive) : Prop :=
  (plan.type.isPrimitive ∧ plan.type ≠ .array) ∧ items.length ≤ maxCount ∧
    ∀ item ∈ items, item.FitsSet plan.itemType

theorem fixedType?_eq_some {type setType : DataType} {length : Nat}
    (h : fixedType? type length = some setType) :
    isByteType type = false ∧ type ≠ .enum ∧ setType.setLayout? = some (.fixed length) ∧
      setType.base = type := by
  unfold fixedType? at h
  split at h <;> cases h <;> exact ⟨rfl, by decide, rfl, rfl⟩

section
variable {plan : Plan}

theorem writeItem_eq (uniform : plan.IsUniform) {value : Primitive}
    (kind : value.fitsSetType plan.type) :
    (if 0 < plan.length then writeFixed plan value else value.encodeSet plan.type) =
      value.encodeSet plan.itemType := by
  unfold Plan.itemType
  by_cases free : plan.length = 0
  · rw [if_neg (by omega), if_pos free]
  · rw [if_pos (by omega), if_neg free]
    obtain ⟨setType, fixed⟩ := Option.isSome_iff_exists.mp (uniform.resolve_left free)
    obtain ⟨noBytes, noEnum, -, -⟩ := fixedType?_eq_some fixed
    unfold writeFixed
    rw [noBytes, if_neg (by decide), fixed]
    cases value with
    | enum n =>
      -- Enumerated values in a fixed width are not laid out by a set definition.
      have base : DataType.enum = plan.type.base := of_decide_eq_true kind
      cases type : plan.type <;> rw [type] at base noEnum fixed <;> cases base
      exact absurd rfl noEnum
    | _ => rfl

theorem writeItem_extends (uniform : plan.IsUniform) {value : Primitive}
    (kind : value.fitsSetType plan.type) :
    Write.Extends (if 0 < plan.length then writeFixed plan value else value.encodeSet plan.type)
      fun _ _ added => added = value.setForm plan.itemType ∧ value.FitsSet plan.itemType := by
  rw [writeItem_eq uniform kind]
  exact value.encodeSet_extends plan.itemType

theorem add_commits_of {value : Primitive} {form : Bytes} {fits : Prop}
    (writes : value.fitsSetType plan.type → Write.Extends
      (if 0 < plan.length then writeFixed plan value else value.encodeSet plan.type)
      fun _ _ added => added = form ∧ fits) {session : Session} :
    Drafting.Commits session (add plan value) fun _ _ after added =>
      (session.phase = .entries ∧ session.count ≠ maxCount) ∧
        after = { session with count := session.count + 1 } ∧ added = form ∧ fits := by
  refine (Drafting.requireEntries_tests wording).then_commits fun _ entries => ?_
  refine Drafting.Commits.ite (fun _ => ?_) fun kind => ?_
  · exact Drafting.session_tests.then_commits fun _ _ =>
      Drafting.Commits.throw_bind _
  · refine (Drafting.requireCount_tests maxCount).then_commits fun _ count => ?_
    refine (Drafting.addEntry_commits (writes (by simpa using kind))).mono ?_
    rintro _ _ _ _ ⟨same, form, fits⟩
    exact ⟨⟨entries, count⟩, same, form, fits⟩

theorem add_commits (uniform : plan.IsUniform) (value : Primitive) {session : Session} :
    Drafting.Commits session (add plan value) fun _ _ after added =>
      (session.phase = .entries ∧ session.count ≠ maxCount) ∧
        after = { session with count := session.count + 1 } ∧
        added = value.setForm plan.itemType ∧ value.FitsSet plan.itemType :=
  add_commits_of fun kind => writeItem_extends uniform kind

structure Plan.IsPossible (plan : Plan) : Prop where
  primitive : plan.type.isPrimitive
  noArray : plan.type ≠ .array
  length : plan.lengthFits

theorem start_commits {session : Session} :
    Drafting.Commits session (start plan) fun start _ after added =>
      session.phase = .idle ∧ plan.IsPossible ∧ added = head plan ++ List.replicate 2 0 ∧
        after = { session with
          start, phase := .entries, countAt := some (start + (head plan).length) } := by
  refine (Drafting.requireIdle_tests wording).then_commits fun _ idle => ?_
  refine Drafting.Commits.ite (fun _ => Drafting.Commits.throw_bind _) fun known => ?_
  refine Drafting.Commits.ite (fun _ => Drafting.Commits.throw_bind _) fun fits => ?_
  refine Drafting.Commits.of_position fun start => ?_
  simp only [Bool.or_eq_true, decide_eq_true_eq, not_or, Decidable.not_not] at known fits
  have header := (Write.byte_emits plan.type.code).then_extends fun _ =>
    (Varying.write16_emits plan.length).then_extends fun _ => Write.reserve_extends 2
  apply (Drafting.Commits.write_update header _).mono
  rintro _ _ _ _ ⟨_, rfl, _, ⟨_, ⟨rfl, rfl⟩, rfl⟩, rfl⟩ rfl
  refine ⟨idle, ⟨known.1.1, known.1.2, fits⟩, by simp [head], ?_⟩
  simp [head, Nat.add_assoc, Nat.add_comm]

theorem finish_fills : Drafting.Fills (finish true) 2 := by
  rintro ⟨_, start, countAt, count⟩ output before added final rfl bytes seals
  cases countAt with
  | none =>
    have same : final = added := seals
    exact ⟨_, output, rfl, rfl, same ▸ bytes⟩
  | some position =>
    obtain ⟨head, tail, rfl, rfl, rfl⟩ := seals
    obtain ⟨after, wrote, capacity, patched⟩ :=
      @Drafting.patchCount_ok start 2 count .done _ _ _ _ bytes
    exact ⟨_, after, wrote, capacity, patched⟩

theorem items_extends (uniform : plan.IsUniform) (items : List Primitive) {start : Nat}
    {countAt : Option Nat} :
    Drafting.Extends ⟨.entries, start, countAt, 0⟩ (items.forM (add plan)) fun _ _ last added =>
      last = ⟨.entries, start, countAt, items.length⟩ ∧ items.length ≤ maxCount ∧
        (∀ item ∈ items, item.FitsSet plan.itemType) ∧
        added = items.flatMap (·.setForm plan.itemType) := by
  refine Drafting.Extends.forM items (fun items last added =>
    last = ⟨.entries, start, countAt, items.length⟩ ∧ items.length ≤ maxCount ∧
      (∀ item ∈ items, item.FitsSet plan.itemType) ∧
      added = items.flatMap (·.setForm plan.itemType)) ?_ ?_
  · exact ⟨rfl, Nat.zero_le _, by simp, rfl⟩
  rintro before item _ _ _ - ⟨rfl, count, fits, rfl⟩
  apply (add_commits uniform item).extends.mono
  rintro _ _ _ _ ⟨⟨-, more⟩, rfl, rfl, fitsItem⟩
  have room : before.length ≠ maxCount := more
  -- The number of items stays below the most that a header can tell.
  refine ⟨by simp, by simp; omega, ?_, by simp⟩
  exact List.forall_mem_append.mpr ⟨fits, List.forall_mem_singleton.mpr fitsItem⟩

theorem encode_extends (uniform : plan.IsUniform) (items : List Primitive) :
    Write.Extends (encode plan items) fun _ _ added => added = form plan items ∧ Fits plan items := by
  refine Drafting.whole_extends finish_fills (start_commits.extends.follow ?_)
  rintro start _ _ _ ⟨-, ⟨primitive, noArray, -⟩, rfl, rfl⟩
  apply (items_extends uniform items).mono
  rintro _ _ _ _ ⟨rfl, count, fits, rfl⟩ -
  exact ⟨rfl, _, ⟨head plan, _, rfl, rfl, rfl⟩, rfl, ⟨primitive, noArray⟩, count, fits⟩

end

/-! ## Reading back -/

section
variable {plan : Plan}

theorem readItem_eq (uniform : plan.IsUniform) :
    readItem plan.type plan.length = Primitive.readSet plan.itemType := by
  unfold readItem Plan.itemType
  by_cases free : plan.length = 0
  · rw [if_pos free, if_pos free]
  · rw [if_neg free, if_neg free]
    obtain ⟨setType, fixed⟩ := Option.isSome_iff_exists.mp (uniform.resolve_left free)
    obtain ⟨noBytes, noEnum, layout, -⟩ := fixedType?_eq_some fixed
    rw [fixed]
    unfold Primitive.readSet
    simp only [Option.getD_some, layout]
    funext unread
    -- Both readers take the same bytes, whose number then fixes how they are decoded.
    cases taken : Read.bytes plan.length unread with
    | error error left => rw [Program.bind_error taken, Program.bind_error taken]
    | ok payload left =>
      obtain ⟨-, length⟩ := Read.bytes_eq_ok taken
      rw [Program.bind_ok taken, Program.bind_ok taken]
      unfold decodeFixed
      rw [length, fixed, noBytes]
      have noFixedEnum : isFixedEnum plan.type plan.length = false := by
        simp [isFixedEnum, noEnum]
      rw [noFixedEnum]
      rfl

def Suits (plan : Plan) (items : List Primitive) : Prop :=
  ∀ item ∈ items, item.isPlain ∧ item.dataType = plan.itemType.base

/-- Where each item is read back from its form, the array is. -/
theorem decode_items (possible : plan.type.isPrimitive ∧ plan.type ≠ .array)
    {items : List Primitive} (few : items.length ≤ maxCount) {form : Primitive → Bytes}
    {back : Primitive → Primitive}
    (reads : ∀ item ∈ items, ∀ rest,
      readItem plan.type plan.length (form item ++ rest) = .ok (back item) rest) :
    decode (head plan ++ Bytes.ofNat 2 items.length ++ items.flatMap form) =
      .ok ⟨plan.type, plan.length, items.length, items.map fun item => .ok (back item)⟩ := by
  obtain ⟨primitive, noArray⟩ := possible
  have steps : ∀ item ∈ items, ∀ rest,
      step plan.type plan.length (form item ++ rest) = (.ok (back item), some rest) := by
    intro item member rest
    unfold step
    rw [reads item member rest]
  have known : ((DataType.ofCode? plan.type.code).filter fun type =>
      type.isPrimitive && type ≠ .array) = some plan.type := by
    simp [primitive, noArray]
  suffices read (head plan ++ Bytes.ofNat 2 items.length ++ items.flatMap form) = .ok _ [] from
    Read.all_ok this
  unfold read head
  simp only [List.append_assoc, List.cons_append, List.nil_append]
  rw [Program.bind_ok (Read.byte_cons _ _), known]
  have length : plan.length ≤ 0xFFFF := Nat.le_of_lt_succ plan.itemLength.toNat_lt
  obtain ⟨counter, counted, number⟩ := Read.count_ofNat few (items.flatMap form)
  change (Varying.read16 >>= _) _ = _
  rw [Program.bind_ok (Varying.read16_form16 length _), Program.bind_ok number]
  change EStateM.Result.ok _ [] = _
  rw [counted, Entries.read_flatMap steps]

theorem decode_form (uniform : plan.IsUniform) {items : List Primitive} (fit : Fits plan items)
    (suits : Suits plan items) :
    decode (form plan items) =
      .ok ⟨plan.type, plan.length, items.length, items.map fun item => .ok item.reread⟩ := by
  obtain ⟨possible, few, fits⟩ := fit
  refine decode_items possible few fun item member rest => ?_
  obtain ⟨plain, native⟩ := suits item member
  rw [readItem_eq uniform, Primitive.readSet_setForm plain native (fits item member)]

end

end ItemArray

end MarketWire
