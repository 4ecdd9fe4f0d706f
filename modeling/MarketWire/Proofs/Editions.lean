import MarketWire.Publication
import MarketWire.Proofs.Parts

/-! Editions cut into parts.

Whatever sizes the parts have, the rows of an edition are cut into a sequence of blocks, one for each
part, and only the first part has a summary. What a receiver keeps from part to part it keeps to the
end.
-/

set_option autoImplicit false

namespace MarketWire

namespace Publication

/-- A run into buffers of some sizes yields parts up to the last one, and no error. -/
def Delivers (publication : Publication) (capacities : List Nat) (parts : List Part) : Prop :=
  (publication.run capacities).1 = parts.map .ok ∧ ∃ part ∈ parts, part.isLast

theorem run_done (publication : Publication) (isDone : publication.isDone = true)
    (capacities : List Nat) : (publication.run capacities).1 = [] := by
  cases capacities with
  | nil => rfl
  | cons capacity rest => rw [run, next, if_pos isDone]

theorem Delivers.cons {encode : Int32 → Nat → Except DictionaryError Part} {rowCount : Nat}
    {cursor : Int32} {capacity : Nat} {capacities : List Nat} {parts : List Part}
    (delivers : Delivers ⟨encode, rowCount, cursor, false⟩ (capacity :: capacities) parts) :
    ∃ part others, parts = part :: others ∧ encode cursor capacity = .ok part ∧
      ((part.next? = none ∧ others = []) ∨ ∃ cursor, part.next? = some cursor ∧
        Delivers ⟨encode, rowCount, cursor, false⟩ capacities others) := by
  obtain ⟨all, last, member, isLast⟩ := delivers
  rw [run, next, if_neg Bool.false_ne_true] at all
  dsimp only at all
  cases encoded : encode cursor capacity with
  | error error =>
    rw [encoded] at all
    cases parts <;> cases all
  | ok part =>
    rw [encoded] at all
    dsimp only at all
    cases following : part.next? with
    | none =>
      rw [following] at all
      dsimp only at all
      rw [run_done _ rfl] at all
      cases parts with
      | nil => cases all
      | cons found others =>
        obtain ⟨same, empty⟩ := List.cons.inj all
        cases same
        exact ⟨part, others, rfl, rfl, .inl ⟨following, List.map_eq_nil_iff.mp empty.symm⟩⟩
    | some cursor =>
      rw [following] at all
      dsimp only at all
      cases parts with
      | nil => cases all
      | cons found others =>
        obtain ⟨same, rest⟩ := List.cons.inj all
        cases same
        refine ⟨part, others, rfl, rfl, .inr ⟨cursor, following, rest, last, ?_, isLast⟩⟩
        rcases List.mem_cons.mp member with rfl | behind
        · rw [Part.isLast, following] at isLast
          cases isLast
        · exact behind

def delivered (publication : Publication) (capacities : List Nat) : List Part :=
  (publication.run capacities).1.filterMap Except.toOption

def Completes (publication : Publication) (capacities : List Nat) : Prop :=
  (∀ result ∈ (publication.run capacities).1, result.toOption.isSome) ∧
    ∃ part ∈ publication.delivered capacities, part.isLast

instance (publication : Publication) (capacities : List Nat) :
    Decidable (publication.Completes capacities) :=
  inferInstanceAs (Decidable (_ ∧ _))

theorem Completes.delivers {publication : Publication} {capacities : List Nat}
    (completes : publication.Completes capacities) :
    publication.Delivers capacities (publication.delivered capacities) := by
  obtain ⟨complete, ends⟩ := completes
  have recover (results : List (Except DictionaryError Part))
      (complete : ∀ result ∈ results, result.toOption.isSome) :
      results = (results.filterMap Except.toOption).map .ok := by
    induction results with
    | nil => rfl
    | cons result rest ih =>
      obtain ⟨one, others⟩ := List.forall_mem_cons.mp complete
      cases result with
      | error error => cases one
      | ok part => exact congrArg (Except.ok part :: ·) (ih others)
  exact ⟨recover _ complete, ends⟩

end Publication

def receive {σ : Type} (decode : Bytes → EStateM DictionaryError σ Nat) :
    List Part → EStateM DictionaryError σ Nat
  | [] => pure 0
  | part :: rest => do
    let count ← decode part.bytes
    return count + (← receive decode rest)

namespace Edition

variable {α β : Type} (edition : Edition α)

def partPlan (definition : Bytes) (isFirst : Bool) : Table.Plan where
  rowType := .elementList
  setDefinitions := some definition
  summary := isFirst
  countHint :=
    if isFirst then edition.count?.map fun count => .ofNat (min count 0xFFFFFFFF) else none

/-- Parts that convey rows one block after another. -/
inductive Conveys (source : Part.Source β) (definition summary : Bytes) :
    Bool → List β → List Part → Prop
  | done : Conveys source definition summary false [] []
  | more {isFirst : Bool} {items taken left : List β} {part : Part} {parts : List Part}
      (takes : Part.Takes source (edition.partPlan definition isFirst) (if isFirst then summary else [])
        items part taken left)
      (rest : Conveys source definition summary false left parts) :
      Conveys source definition summary isFirst items (part :: parts)

/-- What an edition has to do with the rows of a source. -/
structure Sends (source : Part.Source β) (items : List β) (summary : Bytes) (known : Prop) :
    Prop where
  hasRows : edition.hasRows = true
  rows : edition.rows = items.map source.row
  ascending : items.Pairwise fun item other => (source.row item).cursor < (source.row other).cursor
  first : ∀ item ∈ items, edition.first ≤ (source.row item).cursor
  writes : ∀ item ∈ items, ∀ plan, plan.rowType = .elementList → source.Writes plan item
  summarizes : Write.Extends edition.summary fun _ _ added => added = summary ∧ known

section
variable {edition} {source : Part.Source β} {items : List β} {summary : Bytes} {known : Prop}

theorem Sends.rowsFrom_cursor (sends : edition.Sends source items summary known)
    {before rest : List β} {item : β} (split : items = before ++ item :: rest) :
    edition.rowsFrom (source.row item).cursor = (item :: rest).map source.row := by
  have ascending := sends.ascending
  rw [split] at ascending
  have lower := (List.pairwise_append.mp ascending).2.2
  unfold rowsFrom
  rw [if_pos sends.hasRows, sends.rows, split, List.map_append, List.dropWhile_append_of_pos]
  · rw [List.map_cons, List.dropWhile_cons_of_neg (by simp)]
  · intro row member
    obtain ⟨earlier, inBefore, rfl⟩ := List.mem_map.mp member
    simpa using lower earlier inBefore item List.mem_cons_self

theorem Sends.rowsFrom_first (sends : edition.Sends source items summary known) :
    edition.rowsFrom edition.first = items.map source.row := by
  unfold rowsFrom
  rw [if_pos sends.hasRows, sends.rows]
  cases items with
  | nil => rfl
  | cons item rest =>
    have least := sends.first item List.mem_cons_self
    rw [List.map_cons, List.dropWhile_cons_of_neg (by simpa using Int32.not_lt.mpr least)]

theorem encodePart_eq (hasRows : edition.hasRows = true) {definition : Bytes}
    (defined : Column.encodedDefinition edition.columns = .ok definition) (cursor : Int32)
    (capacity : Nat) :
    edition.encodePart cursor capacity = Part.encode cursor capacity
      (edition.partPlan definition (cursor ≤ edition.first)) edition.summary
      (edition.rowsFrom cursor) := by
  unfold encodePart plan
  rw [defined, hasRows]
  rfl

theorem encodedDefinition_of_ok {cursor : Int32} {capacity : Nat} {part : Part}
    (h : edition.encodePart cursor capacity = .ok part) :
    ∃ definition, Column.encodedDefinition edition.columns = .ok definition := by
  cases defined : Column.encodedDefinition edition.columns with
  | ok definition => exact ⟨definition, rfl⟩
  | error error =>
    unfold encodePart plan at h
    rw [defined] at h
    cases h

theorem cursor_of_encodePart {cursor : Int32} {capacity : Nat} {part : Part}
    (h : edition.encodePart cursor capacity = .ok part) : part.cursor = cursor := by
  unfold encodePart at h
  cases planned : edition.plan cursor with
  | error error =>
    rw [planned] at h
    cases h
  | ok plan =>
    rw [planned] at h
    change Part.encode cursor capacity plan edition.summary (edition.rowsFrom cursor) = _ at h
    unfold Part.encode at h
    cases published : Part.publish plan edition.summary (edition.rowsFrom cursor)
      ⟨{}, .empty capacity⟩ with
    | error error after =>
      rw [published] at h
      cases h
    | ok next? after =>
      rw [published] at h
      cases h
      rfl

theorem encodePart_ok (sends : edition.Sends source items summary known) {left : List β}
    (subset : left ⊆ items) {cursor : Int32} {capacity : Nat} {part : Part}
    (rows : edition.rowsFrom cursor = left.map source.row)
    (h : edition.encodePart cursor capacity = .ok part) :
    ∃ definition, Column.encodedDefinition edition.columns = .ok definition ∧
      (cursor ≤ edition.first → known) ∧ ∃ taken rest,
        Part.Takes source (edition.partPlan definition (cursor ≤ edition.first))
          (if cursor ≤ edition.first then summary else []) left part taken rest := by
  obtain ⟨definition, defined⟩ := encodedDefinition_of_ok h
  rw [encodePart_eq sends.hasRows defined, rows] at h
  have writes : ∀ item ∈ left, source.Writes
      (edition.partPlan definition (cursor ≤ edition.first)) item :=
    fun item member => sends.writes item (subset member) _ rfl
  obtain ⟨-, holds, taken, rest, takes⟩ := Part.encode_ok writes sends.summarizes h
  refine ⟨definition, defined, ?_, taken, rest, ?_⟩
  · intro isFirst
    exact holds (decide_eq_true isFirst)
  · simpa [partPlan] using takes

theorem Sends.not_first (sends : edition.Sends source items summary known) {before rest : List β}
    {item : β} (split : items = before ++ item :: rest) (nonempty : before ≠ []) :
    ¬ (source.row item).cursor ≤ edition.first := by
  obtain ⟨earlier, others, rfl⟩ := List.exists_cons_of_ne_nil nonempty
  have ascending := sends.ascending
  rw [split] at ascending
  have least := sends.first earlier (by simp [split])
  have lower := (List.pairwise_append.mp ascending).2.2 earlier List.mem_cons_self item
    List.mem_cons_self
  exact Int32.not_le.mpr (Int32.lt_of_le_of_lt least lower)

-- The cursor stands for the rows that are left: this carries the induction on the sizes of the parts.
theorem run_conveys (sends : edition.Sends source items summary known) {rowCount : Nat}
    {capacities : List Nat} {cursor : Int32} {before left : List β} {parts : List Part}
    (split : items = before ++ left) (rows : edition.rowsFrom cursor = left.map source.row)
    (delivers : Publication.Delivers ⟨edition.encodePart, rowCount, cursor, false⟩ capacities parts) :
    ∃ definition, Column.encodedDefinition edition.columns = .ok definition ∧
      (cursor ≤ edition.first → known) ∧
      edition.Conveys source definition summary (cursor ≤ edition.first) left parts := by
  induction capacities generalizing cursor before left parts with
  | nil =>
    obtain ⟨all, part, member, -⟩ := delivers
    have empty : parts = [] := List.map_eq_nil_iff.mp all.symm
    rw [empty] at member
    cases member
  | cons capacity others ih =>
    obtain ⟨part, parts, rfl, encoded, next⟩ := delivers.cons
    have subset : left ⊆ items := split ▸ List.subset_append_right _ _
    obtain ⟨definition, defined, holds, taken, rest, takes⟩ := encodePart_ok sends subset rows encoded
    refine ⟨definition, defined, holds, ?_⟩
    -- A part that is not the last one leaves rows; the cursor of the first of them starts the next part.
    rcases next with ⟨last, rfl⟩ | ⟨following, next, delivers⟩
    · have empty : rest = [] := by
        have known := takes.next.symm.trans last
        exact List.head?_eq_none_iff.mp (Option.map_eq_none_iff.mp known)
      subst empty
      exact .more (by simpa using takes) .done
    · cases rest with
      | nil =>
        rw [takes.next] at next
        cases next
      | cons item behind =>
        have start : following = (source.row item).cursor := by
          have known := takes.next.symm.trans next
          cases known
          rfl
        subst start
        have here : items = (before ++ taken) ++ item :: behind := by
          rw [split, takes.split, List.append_assoc]
        have nonempty : before ++ taken ≠ [] := by
          simp [takes.progress (List.cons_ne_nil _ _)]
        obtain ⟨same, sameDefined, -, conveys⟩ := ih here (sends.rowsFrom_cursor here) delivers
        rw [defined] at sameDefined
        cases sameDefined
        rw [decide_eq_false (sends.not_first here nonempty)] at conveys
        exact .more (by simpa using takes) conveys

/-- The parts of an edition convey its rows in their order. -/
theorem delivers_conveys (sends : edition.Sends source items summary known) {capacities : List Nat}
    {parts : List Part} (delivers : (Publication.ofEdition edition).Delivers capacities parts) :
    ∃ definition, Column.encodedDefinition edition.columns = .ok definition ∧ known ∧
      edition.Conveys source definition summary true items parts := by
  obtain ⟨definition, defined, holds, conveys⟩ :=
    @run_conveys _ _ _ _ _ _ _ sends _ _ _ [] _ _ rfl sends.rowsFrom_first delivers
  have least : edition.first ≤ edition.first := Int32.le_refl _
  rw [decide_eq_true least] at conveys
  exact ⟨definition, defined, holds least, conveys⟩

/-- What a receiver can do with every part it can do with all of them. -/
theorem Conveys.receive_ok {σ : Type} {decode : Bytes → EStateM DictionaryError σ Nat}
    {definition : Bytes} {isFirst : Bool} {parts : List Part} (Ready : Bool → List β → σ → Prop)
    (step : ∀ {isFirst items taken left part state},
      Part.Takes source (edition.partPlan definition isFirst) (if isFirst then summary else []) items
        part taken left → Ready isFirst items state →
      ∃ after, decode part.bytes state = .ok taken.length after ∧ Ready false left after)
    (conveys : edition.Conveys source definition summary isFirst items parts) {state : σ}
    (ready : Ready isFirst items state) :
    ∃ after, receive decode parts state = .ok items.length after ∧ Ready false [] after := by
  induction conveys generalizing state with
  | done => exact ⟨state, rfl, ready⟩
  -- What a part leaves ready is what the next one needs.
  | more takes rest ih =>
    obtain ⟨middle, decoded, next⟩ := step takes ready
    obtain ⟨after, received, done⟩ := ih next
    refine ⟨after, ?_, done⟩
    rw [receive, Program.bind_ok decoded, Program.bind_ok received, takes.split, List.length_append]
    rfl

end

end Edition

end MarketWire
