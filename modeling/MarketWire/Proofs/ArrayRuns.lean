import MarketWire.Proofs.Arrays
import MarketWire.Proofs.Payloads

/-! Arrays come back from any sequence of calls that has written them.

The type and the length of the items choose among three layouts: bytes that are padded, enumerated
values in one or two bytes, and the layouts of set definitions. What is written in each of them is read
in the same.
-/

set_option autoImplicit false

namespace MarketWire.ItemArray

/-! ## Items -/

def padded (width : Nat) (content : Bytes) : Bytes :=
  content ++ List.replicate (width - content.length) 0

theorem length_padded {width : Nat} {content : Bytes} (fits : content.length ≤ width) :
    (padded width content).length = width := by
  rw [padded, List.length_append, List.length_replicate]
  omega

def Plan.admits (plan : Plan) (item : Primitive) : Bool :=
  item.dataType = plan.type && item.isProper

def itemForm (plan : Plan) (item : Primitive) : Bytes :=
  if plan.IsUniform then item.setForm plan.itemType
  else match item with
    | .enum n => Bytes.ofNat plan.length n.toUInt64.toNat
    | item => padded plan.length (item.content?.getD [])

def ItemFits (plan : Plan) (item : Primitive) : Prop :=
  if plan.IsUniform then
    item.FitsSet plan.itemType ∧ (0 < plan.length → ∀ own, item ≠ .blank own)
  else match item with
    | .enum n => Width.ofUnsigned n.toUInt64 ≤ plan.length
    | item => ∃ content, item.content? = some content ∧ content.length ≤ plan.length

def returned (plan : Plan) (item : Primitive) : Primitive :=
  if plan.length = 0 then item.returned
  else match item with
    | .bytes type content => .bytes type (padded plan.length content)
    | item => item.returnedIn plan.length

section
variable {plan : Plan}

theorem fixed_of_not_uniform (possible : plan.IsPossible) (other : ¬ plan.IsUniform) :
    0 < plan.length ∧ (isByteType plan.type ∨ isFixedEnum plan.type plan.length) := by
  obtain ⟨free, fixed⟩ := not_or.mp other
  have fits := possible.length
  unfold Plan.lengthFits at fits
  simp only [free, fixed, decide_false, Bool.false_or, Bool.or_false, Bool.or_eq_true] at fits
  exact ⟨Nat.pos_of_ne_zero free, fits⟩

theorem setLayout?_itemType (uniform : plan.IsUniform) (filled : 0 < plan.length) :
    plan.itemType.setLayout? = some (.fixed plan.length) ∧ plan.itemType.base = plan.type ∧
      isByteType plan.type = false := by
  obtain ⟨setType, fixed⟩ := Option.isSome_iff_exists.mp (uniform.resolve_left (by omega))
  obtain ⟨noBytes, -, layout, base⟩ := fixedType?_eq_some fixed
  unfold Plan.itemType
  rw [if_neg (by omega), fixed]
  exact ⟨layout, base, noBytes⟩

theorem not_uniform_of_bytes (possible : plan.IsPossible) {type : ByteType} {content : Bytes}
    (admitted : plan.admits (.bytes type content)) (filled : 0 < plan.length) :
    ¬ plan.IsUniform := by
  intro uniform
  have native : type.dataType = plan.type := of_decide_eq_true (Bool.and_eq_true_iff.mp admitted).1
  obtain ⟨-, -, noBytes⟩ := setLayout?_itemType uniform filled
  rw [← native] at noBytes
  cases type with
  | array => exact absurd native.symm possible.noArray
  | _ => cases noBytes

theorem writePadded_extends (width : Nat) (value : Primitive) :
    Write.Extends (writePadded width value) fun _ _ added => ∃ content,
      value.content? = some content ∧ content.length ≤ width ∧ added = padded width content := by
  unfold writePadded
  cases value.content? with
  | none => exact Write.Extends.throw _
  | some content =>
    refine Write.Extends.ite (fun fits => ?_) fun _ => Write.Extends.throw _
    apply ((Write.ensure_emits width).then_extends fun _ => Write.bytes_emits _).mono
    rintro _ _ _ ⟨_, rfl, rfl⟩
    exact ⟨content, rfl, fits, rfl⟩

theorem writeFixed_extends (other : ¬ plan.IsUniform) (value : Primitive) :
    Write.Extends (writeFixed plan value) fun _ _ added =>
      added = itemForm plan value ∧ ItemFits plan value := by
  have noFixed : fixedType? plan.type plan.length = none :=
    Option.not_isSome_iff_eq_none.mp (not_or.mp other).2
  unfold writeFixed itemForm ItemFits
  rw [if_neg other, if_neg other, noFixed]
  by_cases bytes : isByteType plan.type
  · rw [if_pos bytes]
    apply (writePadded_extends plan.length value).mono
    rintro _ _ _ ⟨content, found, fits, rfl⟩
    cases value with
    | bytes | encoded =>
      cases found
      exact ⟨rfl, _, rfl, fits⟩
    | _ => cases found
  · rw [if_neg bytes]
    cases value with
    | enum n =>
      refine Write.Extends.ite (fun fits => ?_) fun _ => Write.Extends.throw _
      exact (Width.writeUnsigned_emits _ _).mono fun _ _ _ form => ⟨form, fits⟩
    | _ => exact Write.Extends.throw _

theorem writeItem_form {value : Primitive} (kind : value.fitsSetType plan.type) :
    Write.Extends (if 0 < plan.length then writeFixed plan value else value.encodeSet plan.type)
      fun _ _ added => added = itemForm plan value ∧ ItemFits plan value := by
  by_cases uniform : plan.IsUniform
  · unfold itemForm ItemFits
    rw [if_pos uniform, if_pos uniform]
    have filled : Write.Extends (value.encodeSet plan.itemType) fun _ _ _ =>
        0 < plan.length → ∀ own, value ≠ .blank own := by
      by_cases free : 0 < plan.length
      · obtain ⟨layout, -⟩ := setLayout?_itemType uniform free
        unfold Primitive.encodeSet
        rw [layout]
        exact (value.encodeFixed_filled _ _).mono fun _ _ _ told _ => told
      · exact (value.encodeSet_extends _).mono fun _ _ _ _ none => absurd none free
    rw [writeItem_eq uniform kind]
    apply ((value.encodeSet_extends plan.itemType).and filled).mono
    rintro _ _ _ ⟨⟨form, fits⟩, nonempty⟩
    exact ⟨form, fits, nonempty⟩
  · rw [if_pos (Nat.pos_of_ne_zero (not_or.mp uniform).1)]
    exact writeFixed_extends uniform value

/-! ## Reading items -/

theorem decodeFixed_padded {type : ByteType} (bytes : isByteType type.dataType) {width : Nat}
    (filled : 0 < width) {content : Bytes} (fits : content.length ≤ width) :
    decodeFixed type.dataType (padded width content) = .ok (.bytes type (padded width content)) := by
  -- With a width of at least one byte the item is no blank.
  have nonempty : padded width content ≠ [] :=
    List.ne_nil_of_length_pos (by rw [length_padded fits]; exact filled)
  have own : (Primitive.bytes type (padded width content)).dataType = type.dataType.base := by
    cases type <;> rfl
  have decoded := Primitive.decode_payload rfl own
  rw [Primitive.reread_bytes nonempty] at decoded
  unfold decodeFixed
  rw [if_pos bytes]
  exact decoded

theorem decodeFixed_enum {n : UInt16} {width : Nat} (fixed : isFixedEnum .enum width)
    (fits : Width.ofUnsigned n.toUInt64 ≤ width) :
    decodeFixed .enum (Bytes.ofNat width n.toUInt64.toNat) = .ok (.enum n) := by
  unfold decodeFixed
  rw [if_neg (by decide), Bytes.length_ofNat, if_pos fixed,
    Bytes.toNat_ofNat (Width.lt_of_ofUnsigned_le fits), UInt16.toNat_toUInt64, UInt16.ofNat_toNat]

theorem readItem_fixed (possible : plan.IsPossible) (other : ¬ plan.IsUniform) {item : Primitive}
    (admitted : plan.admits item) (fits : ItemFits plan item) (rest : Bytes) :
    readItem plan.type plan.length (itemForm plan item ++ rest) = .ok (returned plan item) rest := by
  obtain ⟨filled, kind⟩ := fixed_of_not_uniform possible other
  obtain ⟨native, proper⟩ := Bool.and_eq_true_iff.mp admitted
  have native : item.dataType = plan.type := of_decide_eq_true native
  have taken (form : Bytes) (back : Primitive) (length : form.length = plan.length)
      (decoded : decodeFixed plan.type form = .ok back) :
      readItem plan.type plan.length (form ++ rest) = .ok back rest := by
    unfold readItem
    rw [if_neg (by omega)]
    exact Read.ofExcept_ok (Read.bytes_append length rest) decoded
  unfold ItemFits at fits
  unfold itemForm returned
  rw [if_neg other] at fits ⊢
  rw [if_neg (show plan.length ≠ 0 by omega)]
  rw [← native] at kind taken
  cases item with
  | enum n =>
    have fixed : isFixedEnum .enum plan.length := kind.resolve_left Bool.false_ne_true
    rw [← native]
    exact taken _ _ (Bytes.length_ofNat _ _) (decodeFixed_enum fixed fits)
  | bytes type content =>
    obtain ⟨_, ⟨⟩, short⟩ := fits
    have bytes : isByteType type.dataType :=
      kind.resolve_right (by cases type <;> exact Bool.false_ne_true)
    rw [← native]
    exact taken _ _ (length_padded short) (decodeFixed_padded bytes filled short)
  | blank own =>
    obtain ⟨_, ⟨⟩, _⟩ := fits
  | encoded => cases proper
  | _ => rcases kind with ⟨⟨⟩⟩ | ⟨⟨⟩⟩

theorem readItem_uniform (possible : plan.IsPossible) (uniform : plan.IsUniform) {item : Primitive}
    (admitted : plan.admits item) (fits : ItemFits plan item) (rest : Bytes) :
    readItem plan.type plan.length (itemForm plan item ++ rest) = .ok (returned plan item) rest := by
  obtain ⟨native, proper⟩ := Bool.and_eq_true_iff.mp admitted
  have native : item.dataType = plan.type := of_decide_eq_true native
  unfold ItemFits at fits
  unfold itemForm returned
  rw [if_pos uniform] at fits ⊢
  obtain ⟨fits, nonempty⟩ := fits
  rw [readItem_eq uniform]
  by_cases free : plan.length = 0
  · obtain ⟨base, framed⟩ := DataType.framed_of_isPrimitive possible.primitive
    have same : plan.itemType = plan.type := if_pos free
    rw [same] at fits ⊢
    rw [if_pos free]
    refine Primitive.readSet_framed framed proper ?_ (native.trans base.symm) fits rest
    rw [native]
    exact possible.primitive
  · have filled := Nat.pos_of_ne_zero free
    obtain ⟨layout, base, -⟩ := setLayout?_itemType uniform filled
    have fixed : item.FitsFixed plan.itemType plan.length := by
      unfold Primitive.FitsSet at fits
      rwa [layout] at fits
    rw [if_neg free, Primitive.readSet_fixed layout proper (nonempty filled) (native.trans base.symm) fixed]
    cases item with
    | bytes type content => exact absurd uniform (not_uniform_of_bytes possible admitted filled)
    | _ => rfl

theorem readItem_form (possible : plan.IsPossible) {item : Primitive} (admitted : plan.admits item)
    (fits : ItemFits plan item) (rest : Bytes) :
    readItem plan.type plan.length (itemForm plan item ++ rest) = .ok (returned plan item) rest := by
  by_cases uniform : plan.IsUniform
  · exact readItem_uniform possible uniform admitted fits rest
  · exact readItem_fixed possible uniform admitted fits rest

/-! ## What comes back -/

/-- The value as which an item comes back. A mantissa is lost with a non-finite hint, and a time that is
valid is kept up to the components for which a fixed length has no room. -/
def SameItem (plan : Plan) (item back : Primitive) : Prop :=
  match item with
  | .real value =>
    back = if value.blank then .blank .real
      else .real { value with value := if value.hint.isNonFinite then 0 else value.value }
  | .time value =>
    value.isValid → (0 < plan.length → value.HeldBy plan.length) → back = item
  | .dateTime value =>
    value.time.isValid → (0 < plan.length → value.time.HeldBy (plan.length - Date.wireLength)) →
      back = item
  | .bytes type content =>
    if plan.length = 0 then back = if content = [] then .blank type.dataType else item
    else content.length ≤ plan.length ∧
      back = .bytes type (content ++ List.replicate (plan.length - content.length) 0)
  | _ => back = item

structure Returns (plan : Plan) (item back : Primitive) : Prop where
  same : SameItem plan item back
  blank : item.isBlank → back.isBlank

theorem length_of_type (possible : plan.IsPossible) (filled : 0 < plan.length) :
    plan.type ≠ .real ∧ (plan.type = .time → plan.length ∈ Time.lengths) ∧
      (plan.type = .dateTime → plan.length - Date.wireLength ∈ Time.lengths) := by
  by_cases uniform : plan.IsUniform
  · obtain ⟨layout, base, -⟩ := setLayout?_itemType uniform filled
    obtain ⟨noReal, -, -, -, time, dateTime⟩ := Primitive.width_of_layout layout
    rw [base] at noReal time dateTime
    exact ⟨noReal, time, fun type => (dateTime type).2⟩
  · obtain ⟨-, kind⟩ := fixed_of_not_uniform possible uniform
    refine ⟨?_, ?_, ?_⟩ <;> intro type <;> rw [type] at kind <;> rcases kind with ⟨⟨⟩⟩ | ⟨⟨⟩⟩

theorem returned_returns_free (free : plan.length = 0) {item : Primitive} (proper : item.isProper) :
    Returns plan item (returned plan item) := by
  unfold returned
  rw [if_pos free]
  cases item with
  | real value =>
    cases blank : value.blank with
    | true => exact ⟨by simp [SameItem, Primitive.returned, blank],
        fun _ => by simp [Primitive.returned, blank, Primitive.isBlank]⟩
    | false =>
      refine ⟨?_, fun absent => absurd absent (by simp [Primitive.isBlank, blank])⟩
      simp [SameItem, Primitive.returned, blank, Real.kept_eq blank]
  | time value =>
    refine ⟨fun valid _ => ?_, fun absent => Time.isBlank_kept absent value.wireLength_mem⟩
    exact congrArg Primitive.time (Time.kept_eq valid value.wireLength_mem value.heldBy_wireLength)
  | dateTime value =>
    refine ⟨fun valid _ => ?_, fun absent => ?_⟩
    · exact congrArg (fun time => Primitive.dateTime ⟨value.date, time⟩)
        (Time.kept_eq valid value.time.wireLength_mem value.time.heldBy_wireLength)
    · obtain ⟨date, time⟩ := Bool.and_eq_true_iff.mp absent
      exact Bool.and_eq_true_iff.mpr ⟨date, Time.isBlank_kept time value.time.wireLength_mem⟩
  | bytes type content =>
    refine ⟨?_, nofun⟩
    unfold SameItem
    dsimp only
    rw [if_pos free]
    cases content <;> rfl
  | encoded => cases proper
  | _ => exact ⟨rfl, id⟩

theorem returned_returns_fixed (possible : plan.IsPossible) (filled : 0 < plan.length)
    {item : Primitive} (admitted : plan.admits item) (fits : ItemFits plan item) :
    Returns plan item (returned plan item) := by
  obtain ⟨native, proper⟩ := Bool.and_eq_true_iff.mp admitted
  have native : item.dataType = plan.type := of_decide_eq_true native
  obtain ⟨noReal, time, dateTime⟩ := length_of_type possible filled
  unfold returned
  rw [if_neg (by omega)]
  cases item with
  | real value => exact absurd native.symm noReal
  | time value =>
    have known := time native.symm
    refine ⟨fun valid held => ?_, fun absent => Time.isBlank_kept absent known⟩
    exact congrArg Primitive.time (Time.kept_eq valid known (held filled))
  | dateTime value =>
    have known := dateTime native.symm
    refine ⟨fun valid held => ?_, fun absent => ?_⟩
    · exact congrArg (fun time => Primitive.dateTime ⟨value.date, time⟩)
        (Time.kept_eq valid known (held filled))
    · obtain ⟨date, time⟩ := Bool.and_eq_true_iff.mp absent
      exact Bool.and_eq_true_iff.mpr ⟨date, Time.isBlank_kept time known⟩
  | bytes type content =>
    unfold ItemFits at fits
    rw [if_neg (not_uniform_of_bytes possible admitted filled)] at fits
    obtain ⟨_, ⟨⟩, short⟩ := fits
    refine ⟨?_, nofun⟩
    unfold SameItem
    dsimp only
    rw [if_neg (by omega)]
    exact ⟨short, rfl⟩
  | encoded => cases proper
  | _ => exact ⟨rfl, id⟩

theorem returned_returns (possible : plan.IsPossible) {item : Primitive}
    (admitted : plan.admits item) (fits : ItemFits plan item) :
    Returns plan item (returned plan item) := by
  by_cases free : plan.length = 0
  · exact returned_returns_free free (Bool.and_eq_true_iff.mp admitted).2
  · exact returned_returns_fixed possible (Nat.pos_of_ne_zero free) admitted fits

end

/-! ## Runs -/

inductive Call where
  | start
  | add (item : Primitive)

/-- The writer of an array between two calls, with the items that it has accepted. -/
structure Run where
  draft : Draft
  items : List Primitive

def Call.steps (plan : Plan) : Call → Drafting Unit
  | .start => ItemArray.start plan
  | .add item => ItemArray.add plan item

def Call.items : Call → List Primitive
  | .start => []
  | .add item => [item]

def Call.allowed (plan : Plan) (call : Call) : Bool := call.items.all plan.admits

namespace Run

def start (output : Output) : Run := ⟨⟨{}, output⟩, []⟩

def call (plan : Plan) (run : Run) (call : Call) : Run :=
  match call.steps plan run.draft with
  | .ok _ draft => ⟨draft, run.items ++ call.items⟩
  | .error _ draft => ⟨draft, run.items⟩

def calls (plan : Plan) (run : Run) (calls : List Call) : Run := calls.foldl (call plan) run

end Run

structure ItemsFit (plan : Plan) (items : List Primitive) : Prop where
  possible : plan.IsPossible
  few : items.length ≤ maxCount
  each : ∀ item ∈ items, plan.admits item ∧ ItemFits plan item

def unsealed (plan : Plan) (items : List Primitive) : Bytes :=
  head plan ++ List.replicate 2 0 ++ items.flatMap (itemForm plan)

/-- The output of a writer is as its items tell, behind what the output held before. -/
inductive Run.Follows (plan : Plan) (before : Bytes) : Run → Prop
  | idle {output : Output} (bytes : output.toList = before) : Follows plan before (.start output)
  | entries {output : Output} {items : List Primitive} (fits : ItemsFit plan items)
      (bytes : output.toList = before ++ unsealed plan items) :
      Follows plan before
        ⟨⟨⟨.entries, before.length, some (before.length + (head plan).length), items.length⟩,
          output⟩, items⟩

namespace Run.Follows

variable {plan : Plan} {before : Bytes} {run : Run}

theorem start (follows : run.Follows plan before) : (run.call plan .start).Follows plan before := by
  unfold Run.call Call.steps
  dsimp only
  cases h : ItemArray.start plan run.draft with
  | error error after =>
    obtain rfl := start_commits.of_error h
    exact follows
  | ok _ after =>
    obtain ⟨-, _, bytes, idle, possible, rfl, session⟩ := start_commits.of_ok h
    cases follows with
    | entries => cases idle
    | @idle output same =>
      obtain ⟨_, written⟩ := after
      dsimp only [Run.start] at bytes session
      subst session
      rw [same] at bytes
      rw [← Output.length_toList, same]
      refine @entries _ _ _ [] ⟨possible, Nat.zero_le _, by simp⟩ ?_
      simpa [unsealed] using bytes

theorem add (follows : run.Follows plan before) {item : Primitive} (admitted : plan.admits item) :
    (run.call plan (.add item)).Follows plan before := by
  cases follows with
  | @idle output bytes =>
    -- No item is accepted before the array is started.
    obtain ⟨error, refused⟩ : ∃ error, ItemArray.add plan item (Run.start output).draft =
      .error error (Run.start output).draft := ⟨_, rfl⟩
    unfold Run.call Call.steps
    dsimp only
    rw [refused]
    exact idle bytes
  | @entries output items fits bytes =>
    have commits := @add_commits_of plan item _ _ fun kind => writeItem_form kind
    unfold Run.call Call.steps
    dsimp only
    cases h : ItemArray.add plan item _ with
    | error error after =>
      obtain rfl := commits.of_error h
      exact entries fits bytes
    | ok _ after =>
      obtain ⟨-, _, afterBytes, ⟨-, more⟩, session, rfl, itemFits⟩ := commits.of_ok h
      obtain ⟨_, written⟩ := after
      dsimp only at afterBytes session more
      subst session
      have fitsAll : ItemsFit plan (items ++ [item]) := by
        refine ⟨fits.possible, ?_, List.forall_mem_append.mpr ⟨fits.each, ?_⟩⟩
        · have few := fits.few
          rw [List.length_append, List.length_singleton]
          omega
        · exact List.forall_mem_singleton.mpr ⟨admitted, itemFits⟩
      have here := @entries _ before written _ fitsAll (by
        rw [afterBytes, bytes]
        simp [unsealed])
      rwa [List.length_append, List.length_singleton] at here

theorem call (follows : run.Follows plan before) {call : Call} (allowed : call.allowed plan) :
    (run.call plan call).Follows plan before := by
  cases call with
  | start => exact follows.start
  | add item => exact follows.add (by simpa [Call.allowed, Call.items] using allowed)

theorem calls (follows : run.Follows plan before) {calls : List Call}
    (allowed : calls.all (·.allowed plan)) : (run.calls plan calls).Follows plan before := by
  induction calls generalizing run with
  | nil => exact follows
  | cons call calls ih =>
    obtain ⟨here, behind⟩ := Bool.and_eq_true_iff.mp allowed
    exact ih (follows.call here) behind

end Run.Follows

/-- An array can be ended only once it has been started, and its bytes are then those of its items. -/
theorem finish_form {plan : Plan} {before : Bytes} {run : Run} (follows : run.Follows plan before)
    {final : Draft} (ended : finish true run.draft = .ok () final) :
    ItemsFit plan run.items ∧ final.output.toList = before ++
      (head plan ++ Bytes.ofNat 2 run.items.length ++ run.items.flatMap (itemForm plan)) := by
  cases follows with
  | idle => cases ended
  | @entries output items fits bytes =>
    have seals : Session.Seals
        ⟨.entries, before.length, some (before.length + (head plan).length), items.length⟩ 2
        before.length (unsealed plan items)
        (head plan ++ Bytes.ofNat 2 items.length ++ items.flatMap (itemForm plan)) :=
      ⟨head plan, _, rfl, rfl, rfl⟩
    obtain ⟨last, after, done, -, afterBytes⟩ := finish_fills rfl bytes seals
    cases done.symm.trans ended
    exact ⟨fits, afterBytes⟩

/-- An array is read as its writer has been called: every item that was accepted comes back, and none as
an error. -/
theorem decode_ended_items (plan : Plan) (output : Output) (calls : List Call)
    (allowed : calls.all (·.allowed plan)) {final : Draft}
    (ended : finish true (Run.calls plan (.start output) calls).draft = .ok () final) :
    let items := (Run.calls plan (.start output) calls).items
    ∃ back : Primitive → Primitive,
      decode (final.output.toList.drop output.position) =
          .ok ⟨plan.type, plan.length, items.length, items.map fun item => .ok (back item)⟩ ∧
        ∀ item ∈ items, Returns plan item (back item) := by
  intro items
  obtain ⟨⟨possible, few, each⟩, bytes⟩ :=
    finish_form ((Run.Follows.idle rfl : (Run.start output).Follows plan output.toList).calls allowed)
      ended
  refine ⟨returned plan, ?_, fun item member => ?_⟩
  · rw [bytes, ← Output.length_toList, List.drop_left]
    refine decode_items ⟨possible.primitive, possible.noArray⟩ few fun item member => ?_
    obtain ⟨admitted, fits⟩ := each item member
    exact readItem_form possible admitted fits
  · obtain ⟨admitted, fits⟩ := each item member
    exact returned_returns possible admitted fits

/-! Prices behind three bytes that were there before. -/

def pricePlan : Plan := ⟨.real, 0⟩

def priceOutput : Output := ⟨#[1, 2, 3], 40, by decide⟩

/-- No item is accepted before the start, and there is no second start. -/
def priceCalls : List Call :=
  [.add (.blank .real), .start, .add (.real ⟨5, ⟨14⟩, false⟩), .start, .add (.blank .real),
    .add (.real ⟨7, .infinity, false⟩)]

theorem decode_ended_items_price : ∃ final,
    finish true (Run.calls pricePlan (.start priceOutput) priceCalls).draft = .ok () final ∧
      decode (final.output.toList.drop 3) = .ok ⟨.real, 0, 3, [.ok (.real ⟨5, ⟨14⟩, false⟩),
        .ok (.blank .real), .ok (.real ⟨0, .infinity, false⟩)]⟩ := by
  have items : (Run.calls pricePlan (.start priceOutput) priceCalls).items =
      [.real ⟨5, ⟨14⟩, false⟩, .blank .real, .real ⟨7, .infinity, false⟩] := by decide +kernel
  have ends : Program.succeeds (finish true)
      (Run.calls pricePlan (.start priceOutput) priceCalls).draft := by decide +kernel
  obtain ⟨⟨⟩, final, ended⟩ := Program.exists_of_succeeds ends
  obtain ⟨back, decoded, returns⟩ :=
    decode_ended_items pricePlan priceOutput priceCalls (by decide) ended
  rw [items] at decoded returns
  simp only [List.forall_mem_cons, List.map_cons, List.map_nil] at decoded returns
  obtain ⟨finite, blank, infinite, -⟩ := returns
  rw [show back _ = _ from finite.same, show back _ = _ from blank.same,
    show back _ = _ from infinite.same] at decoded
  exact ⟨final, ended, decoded⟩

end MarketWire.ItemArray
