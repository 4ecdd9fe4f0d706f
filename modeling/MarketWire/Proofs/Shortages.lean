import MarketWire.Proofs.Capacities
import MarketWire.Proofs.RowRooms

/-! What becomes of a part when room runs out.

Rows are taken while there is room for them, and the first one for which there is none ends the part.
So the number of rows that a buffer takes is told by its size, by the header and by the rows alone.
-/

set_option autoImplicit false

namespace MarketWire

/-! ## Rows in parts -/

namespace Part

variable {plan : Table.Plan} {row : Row} {session : Session}

theorem openEntry_needs (hasPayload : plan.hasPayload) (phase : session.phase = .entries)
    (more : session.count ≠ Table.maxCount) :
    Drafting.Needs session (Series.openEntry plan) LengthForm.bits16.reserved := by
  intro output
  have reserved : Write.Needs (Table.Plan.reservePayload plan.hasPayload) LengthForm.bits16.reserved := by
    rw [hasPayload]
    exact fun output => (LengthSlot.reserve_needs .bits16 output).then_ok
      fun _ middle _ => ⟨_, middle, rfl⟩
  have accepted : Table.requireRow ⟨session, output⟩ = .ok () ⟨session, output⟩ := by
    unfold Table.requireRow
    rw [Program.bind_ok (Drafting.requireEntries_ok _ phase output)]
    exact Drafting.requireCount_ok more output
  refine Program.Needs.of_next accepted rfl (Program.Needs.of_next (Drafting.write_ok rfl) rfl ?_)
  refine (Drafting.write_needs (Write.atomic_needs reserved) _ output).then_ok fun _ middle _ => ?_
  exact ⟨(), _, rfl⟩

theorem addRow_needs {form : Bytes} {known : Prop} {need : Nat} (opening : row.opening = Series.openEntry)
    (hasPayload : plan.hasPayload)
    (content : Write.Extends row.content fun _ _ added => added = form ∧ known)
    (needs : row.content.Needs need) (short : form.length ≤ 0xFFFF) (phase : session.phase = .entries)
    (more : session.count ≠ Table.maxCount) :
    Drafting.Needs session (addRow plan row) (LengthForm.bits16.reserved + need) := by
  intro output
  unfold addRow
  rw [opening, ← Nat.max_eq_right (Nat.le_add_right LengthForm.bits16.reserved need)]
  refine (openEntry_needs hasPayload phase more output).bind fun _ middle opened => ?_
  obtain ⟨capacity, _, bytes, -, -, rfl, same⟩ := (opens_series hasPayload session).of_ok opened
  obtain ⟨_, start⟩ := middle
  dsimp only at capacity bytes same
  subst same
  rw [List.nil_append] at bytes
  have taken := Output.room_append capacity bytes
  rw [List.length_replicate] at taken
  refine ⟨taken, ?_⟩
  -- A row that fails passes its failure on, and one that is short enough can be closed.
  have told := needs start
  by_cases enough : need ≤ start.room
  · obtain ⟨_, after, written⟩ := told.of_room enough
    obtain ⟨-, _, payloadBytes, rfl, -⟩ := content.of_ok written
    rw [bytes] at payloadBytes
    unfold Program.Needs
    rw [Program.bind_ok (Program.tryCatch_ok (Drafting.write_ok written)), ← Output.length_toList]
    rcases LengthSlot.close_eq payloadBytes with ⟨-, last, closed, -⟩ | ⟨long, -⟩
    · unfold Table.closeEntry
      rw [List.length_nil, Nat.add_zero, Drafting.closeEntry_ok _ closed]
      exact enough
    · exact absurd short (Nat.not_le.mpr long)
  · obtain ⟨needed, available, after, failed⟩ := told.of_lack (Nat.lt_of_not_le enough)
    have dropped (slot : Option LengthSlot) :
        (do Table.closeEntry false; throw (.bufferTooSmall needed available) : Drafting Unit)
          ⟨{ session with phase := .entry output.position slot }, after⟩ =
          .error (.bufferTooSmall needed available)
            ⟨{ session with phase := .entries }, after.cut output.position⟩ := rfl
    unfold Program.Needs
    rw [Program.bind_error ((Program.tryCatch_error (Drafting.write_error failed)).trans (dropped _))]
    exact Nat.lt_of_not_le enough

def Source.Adds {α : Type} (source : Source α) (plan : Table.Plan) (need : α → Nat) (item : α) : Prop :=
  ∀ session, session.phase = .entries → session.count ≠ Table.maxCount →
    Drafting.Needs session (addRow plan (source.row item)) (need item)

section
variable {α : Type} {source : Source α} {need : α → Nat} {items front rest : List α} {item : α}
  {output : Output}

/-- Rows for which there is room are taken. -/
theorem addRows_append (writes : ∀ item ∈ front, source.Writes plan item)
    (adds : ∀ item ∈ front, source.Adds plan need item) (phase : session.phase = .entries)
    (few : session.count + front.length ≤ Table.maxCount)
    (enough : needInTurn need source.rowForm front ≤ output.room) :
    ∃ after, addRows plan ((front ++ rest).map source.row) ⟨session, output⟩ =
        addRows plan (rest.map source.row)
          ⟨{ session with count := session.count + front.length }, after⟩ ∧
      after.capacity = output.capacity ∧
      after.toList = output.toList ++ front.flatMap source.rowForm := by
  induction front generalizing session output with
  | nil => exact ⟨output, rfl, rfl, by simp⟩
  | cons item others ih =>
    obtain ⟨opens, content⟩ := writes item List.mem_cons_self
    rw [List.length_cons] at few
    have more : session.count ≠ Table.maxCount := by omega
    obtain ⟨own, following⟩ := Nat.max_le.mp enough
    change (source.rowForm item).length + _ ≤ _ at following
    obtain ⟨_, middle, added⟩ := (adds item List.mem_cons_self session phase more output).of_room own
    obtain ⟨capacity, _, bytes, _, ⟨rfl, -⟩, -, -, rfl, same⟩ :=
      (addRow_commits opens content session).of_ok added
    obtain ⟨_, next⟩ := middle
    dsimp only at capacity bytes same
    subst same
    change next.toList = output.toList ++ source.rowForm item at bytes
    have taken := Output.room_append capacity bytes
    have left : needInTurn need source.rowForm others ≤ next.room := by omega
    obtain ⟨after, same, sameCapacity, afterBytes⟩ := @ih { session with count := session.count + 1 } next
      (fun other member => writes other (List.mem_cons_of_mem _ member))
      (fun other member => adds other (List.mem_cons_of_mem _ member)) phase
      (by simpa [Nat.add_assoc, Nat.add_comm 1] using few) left
    refine ⟨after, ?_, sameCapacity.trans capacity, ?_⟩
    · rw [List.cons_append, List.map_cons, addRows]
      simp only [added, same, List.length_cons, Nat.add_assoc, Nat.add_comm 1]
    · rw [afterBytes, bytes, List.append_assoc, List.flatMap_cons]

/-- A row for which there is no room is left over, unless it is the first one. -/
theorem addRows_lack (writes : source.Writes plan item) (adds : source.Adds plan need item)
    (phase : session.phase = .entries) (more : session.count ≠ Table.maxCount)
    (lack : output.room < need item) :
    addRows plan ((item :: rest).map source.row) ⟨session, output⟩ =
      if session.count = 0 then .error (.itemTooLarge (source.row item).cursor) ⟨session, output⟩
      else .ok (some (source.row item).cursor) ⟨session, output⟩ := by
  obtain ⟨needed, available, after, failed⟩ := (adds session phase more output).of_lack lack
  obtain rfl := (addRow_commits writes.opens writes.content session).of_error failed
  rw [List.map_cons, addRows]
  simp only [failed]

end

end Part

/-! ## Headers -/

namespace Table

variable {plan : Plan} {summary : Bytes}

theorem writeHead_prints (fits : plan.Fits summary) : Write.Prints plan.writeHead plan.head := by
  obtain ⟨-, definitions, -⟩ := fits
  unfold Plan.writeHead Plan.head
  cases found : plan.setDefinitions with
  | none =>
    exact (Write.bytes_prints [plan.flags]).bind fun _ =>
      (Write.bytes_prints [plan.rowType.containerCode]).bind fun _ => Write.Prints.pure ()
  | some encoded =>
    exact (Write.bytes_prints [plan.flags]).bind fun _ =>
      (Write.bytes_prints [plan.rowType.containerCode]).bind fun _ =>
        Write.framed_prints (definitions encoded found)

theorem writeTail_needs (fits : plan.Fits summary) : plan.writeTail.Needs (plan.tail.length + 2) := by
  obtain ⟨-, -, -, hints⟩ := fits
  unfold Plan.writeTail Plan.tail
  cases found : plan.countHint with
  | none => exact (Write.Prints.pure ()).then_needs fun _ => Write.reserve_needs 2
  | some hint =>
    have prints : Write.Prints (Varying.write30 hint.toNat) (Varying.form30 hint.toNat) := by
      unfold Varying.write30
      rw [if_pos (hints hint found)]
      exact Write.bytes_prints _
    exact prints.then_needs fun _ => Write.reserve_needs 2

theorem start_needs (fits : plan.Fits summary) :
    Drafting.Needs {} (start plan)
      (plan.head.length + if plan.summary then 2 else plan.tail.length + 2) := by
  intro output
  have head := writeHead_prints fits
  unfold start
  refine Program.Needs.of_next (Drafting.requireIdle_ok _ output) rfl ?_
  rw [if_neg (by simpa using fits.1)]
  refine Program.Needs.of_next (Drafting.write_ok rfl) rfl ?_
  cases plan.summary with
  | true =>
    have needs := head.then_needs fun _ => LengthSlot.reserve_needs .bits15
    exact (Drafting.write_needs (Write.atomic_needs needs) _ output).then_ok
      fun _ middle _ => ⟨(), _, rfl⟩
  | false =>
    have needs := head.then_needs fun _ => writeTail_needs fits
    exact (Drafting.write_needs (Write.atomic_needs needs) _ output).then_ok
      fun _ middle _ => ⟨(), _, rfl⟩

theorem closeSummary_of_room (fits : plan.Fits summary) (hasSummary : plan.summary = true)
    {output : Output} {before : Bytes} {start : Nat}
    (bytes : output.toList = before ++ List.replicate 2 0 ++ summary)
    (enough : plan.tail.length + 2 ≤ output.room) :
    ∃ after, closeSummary plan true
      ⟨⟨.summary (some ⟨before.length, .bits15⟩), start, none, 0⟩, output⟩ = .ok () after := by
  change ∃ after, (Drafting.write (LengthSlot.close ⟨before.length, .bits15⟩) >>= fun _ =>
    Drafting.write (Write.atomic plan.writeTail) >>= fun countAt => Drafting.update fun session =>
      { session with phase := .entries, countAt := some countAt })
    ⟨⟨.summary none, start, none, 0⟩, output⟩ = _
  rcases @LengthSlot.close_eq .bits15 _ _ _ bytes with
    ⟨-, closed, wrote, capacity, closedBytes⟩ | ⟨long, -⟩
  · have grown : output.room ≤ closed.room := by
      have spelled := LengthForm.length_spell_le .bits15 summary.length
      have length := congrArg List.length bytes
      have closedLength := congrArg List.length closedBytes
      simp only [LengthForm.frame, List.length_append, List.length_replicate,
        Output.length_toList] at length closedLength
      unfold Output.position at length closedLength
      change _ ≤ 2 at spelled
      unfold Output.room
      omega
    obtain ⟨countAt, last, tailed⟩ := (Write.atomic_needs (writeTail_needs fits) closed).of_room
      (Nat.le_trans enough grown)
    rw [Program.bind_ok (Drafting.write_ok wrote), Program.bind_ok (Drafting.write_ok tailed)]
    exact ⟨_, rfl⟩
  · exact absurd (fits.2.2.1 hasSummary) (Nat.not_le.mpr long)

end Table

namespace Part

theorem draft_of_ok {α : Type} {step : Drafting α} {value : α} {before after : Draft}
    (h : step before = .ok value after) : draft step before = .ok value after := by
  unfold draft
  rw [h]

section
variable {α : Type} {source : Source α} {plan : Table.Plan} {writer : Write Unit} {summary : Bytes}
  {known : Prop} {need capacity : Nat} {rows : List Row} {first : Draft}

/-- A table that has been started in an empty buffer, from where on all depends on the rows. -/
structure Begun (plan : Table.Plan) (writer : Write Unit) (summary : Bytes) (rows : List Row)
    (capacity : Nat) (first : Draft) : Prop where
  started : Table.Started plan (.empty capacity) summary first
  bounded : first.output.capacity = capacity
  publish : publish plan writer rows ⟨{}, .empty capacity⟩ =
    (do let next? ← addRows plan rows; draft (Table.finish true); return next?) first

theorem Begun.room (begun : Begun plan writer summary rows capacity first) :
    capacity = (plan.header summary).length + 2 + first.output.room := by
  have taken := Output.room_append begun.bounded begun.started.bytes
  rwa [Output.room_empty, List.length_append, List.length_replicate] at taken

theorem Begun.encode_eq (begun : Begun plan writer summary rows capacity first) {cursor : Int32}
    {next? : Option Int32} {after : Output} {count : Nat} {added : Bytes}
    (rowsAdded : addRows plan rows first = .ok next? ⟨{ first.session with count }, after⟩)
    (bytes : after.toList = first.output.toList ++ added) :
    encode cursor capacity plan writer rows = .ok ⟨cursor, plan.form summary count added, next?⟩ := by
  obtain ⟨-, firstBytes, session⟩ := begun.started
  rw [firstBytes, List.append_assoc] at bytes
  rw [session] at rowsAdded
  have seals : Session.Seals ⟨.entries, (Output.empty capacity).position,
      some ((Output.empty capacity).position + (plan.header summary).length), count⟩ 2
      (Output.empty capacity).toList.length
      (plan.header summary ++ List.replicate 2 0 ++ added) (plan.form summary count added) :=
    ⟨plan.header summary, added, by rw [Output.length_toList], rfl, rfl⟩
  obtain ⟨state, final, finished, -, finalBytes⟩ :=
    Drafting.finish_fills Table.wording 2 rfl bytes seals
  have published : Part.publish plan writer rows ⟨{}, .empty capacity⟩ = .ok next? ⟨state, final⟩ :=
    begun.publish.trans ((Program.bind_ok rowsAdded).trans (Program.bind_ok (draft_of_ok finished)))
  unfold encode
  rw [published]
  dsimp only
  rw [finalBytes]
  rfl

theorem begun_of_room (summarizes : Write.Extends writer fun _ _ added => added = summary ∧ known)
    (needs : plan.summary → writer.Needs need) (fits : plan.Fits (if plan.summary then summary else []))
    (enough : plan.head.length + (if plan.summary then 2 + max need summary.length else 0)
      + (plan.tail.length + 2) ≤ capacity) :
    ∃ first, Begun plan writer (if plan.summary then summary else []) rows capacity first := by
  have start := Table.start_needs fits (.empty capacity)
  cases hasSummary : plan.summary with
  | false =>
    rw [hasSummary] at start enough
    obtain ⟨_, first, begun⟩ := start.of_room (by simpa [Output.room_empty] using enough)
    obtain ⟨sameCapacity, -⟩ := (Table.start_commits hasSummary).of_ok begun
    refine ⟨first, Table.started hasSummary begun, sameCapacity, ?_⟩
    unfold publish
    rw [Program.bind_ok (draft_of_ok begun), hasSummary]
    rfl
  | true =>
    rw [hasSummary] at start enough fits
    simp only [if_true] at start enough fits
    obtain ⟨_, first, begun⟩ := start.of_room (by change _ ≤ capacity; omega)
    obtain ⟨firstCapacity, _, firstBytes, -, -, rfl, session⟩ :=
      (Table.start_summary_commits hasSummary).of_ok begun
    obtain ⟨_, started⟩ := first
    dsimp only at firstCapacity firstBytes session
    subst session
    have headTaken := Output.room_append firstCapacity firstBytes
    rw [Output.room_empty, List.length_append, List.length_replicate] at headTaken
    obtain ⟨_, second, wrote⟩ := (needs hasSummary started).of_room (by omega)
    obtain ⟨secondCapacity, _, secondBytes, rfl, -⟩ := summarizes.of_ok wrote
    have summaryTaken := Output.room_append secondCapacity secondBytes
    have bytes := secondBytes
    rw [firstBytes, ← List.append_assoc] at bytes
    obtain ⟨third, closed⟩ := @Table.closeSummary_of_room _ _ fits hasSummary _ _
      (Output.empty capacity).position bytes (by omega)
    rw [List.length_append, Output.length_toList] at closed
    have kept := (Table.closeSummary_keepsRoom plan capacity).of_ok
      (secondCapacity.trans firstCapacity) closed
    have drafted (session : Session) :
        Drafting.write writer ⟨session, started⟩ = .ok () ⟨session, second⟩ := Drafting.write_ok wrote
    obtain ⟨-, ready⟩ := Table.started_summary hasSummary summarizes begun (drafted _) closed
    refine ⟨third, ready, kept, ?_⟩
    unfold publish
    rw [Program.bind_ok (draft_of_ok begun), hasSummary, if_pos rfl,
      Program.bind_ok (draft_of_ok (drafted _)), Program.bind_ok (draft_of_ok closed)]

theorem begun_of_ok (summarizes : Write.Extends writer fun _ _ added => added = summary ∧ known)
    {cursor : Int32} {part : Part} (h : encode cursor capacity plan writer rows = .ok part) :
    ∃ first, Begun plan writer (if plan.summary then summary else []) rows capacity first := by
  unfold encode at h
  cases published : publish plan writer rows ⟨{}, .empty capacity⟩ with
  | error error after =>
    rw [published] at h
    cases h
  | ok next? after =>
    have run := published
    unfold publish at run
    obtain ⟨_, first, begun, rest⟩ := Program.bind_eq_ok run
    have start := Table.start_keepsRoom plan capacity |>.of_ok rfl (draft_ok begun)
    cases hasSummary : plan.summary with
    | false =>
      refine ⟨first, Table.started hasSummary (draft_ok begun), start, ?_⟩
      unfold publish
      rw [Program.bind_ok begun, hasSummary]
      rfl
    | true =>
      rw [hasSummary, if_pos rfl] at rest
      obtain ⟨_, second, wrote, rest⟩ := Program.bind_eq_ok rest
      obtain ⟨_, third, closed, -⟩ := Program.bind_eq_ok rest
      have filled := (Drafting.write_keepsRoom summarizes.keepsRoom capacity).of_ok start
        (draft_ok wrote)
      have kept := (Table.closeSummary_keepsRoom plan capacity).of_ok filled (draft_ok closed)
      obtain ⟨-, ready⟩ := Table.started_summary hasSummary summarizes (draft_ok begun)
        (draft_ok wrote) (draft_ok closed)
      refine ⟨third, ready, kept, ?_⟩
      unfold publish
      rw [Program.bind_ok begun, hasSummary, if_pos rfl, Program.bind_ok wrote, Program.bind_ok closed]

end

section
variable {α : Type} {source : Source α} {plan : Table.Plan} {writer : Write Unit} {summary : Bytes}
  {capacity : Nat} {first : Draft} {need : α → Nat} {items front rest : List α} {cursor : Int32}

/-- The rows at the front for which there is room, and the room behind them. -/
theorem Begun.takes (begun : Begun plan writer summary (items.map source.row) capacity first)
    (split : items = front ++ rest) (writes : ∀ item ∈ items, source.Writes plan item)
    (adds : ∀ item ∈ front, source.Adds plan need item) (few : front.length ≤ Table.maxCount)
    (enough : (plan.header summary).length + 2
      + needInTurn need source.rowForm front ≤ capacity) :
    ∃ after, addRows plan (items.map source.row) first =
        addRows plan (rest.map source.row) ⟨{ first.session with count := front.length }, after⟩ ∧
      after.toList = first.output.toList ++ front.flatMap source.rowForm ∧
      capacity = (plan.header summary).length + 2 + (front.flatMap source.rowForm).length
        + after.room := by
  have room := begun.room
  have count : first.session.count = 0 := by rw [begun.started.session]
  have inside : ∀ item ∈ front, source.Writes plan item :=
    fun item member => writes item (split ▸ List.mem_append_left _ member)
  obtain ⟨after, same, sameCapacity, bytes⟩ := @addRows_append plan first.session _ source need front
    rest first.output inside adds (by rw [begun.started.session]) (by omega) (by omega)
  have taken := Output.room_append sameCapacity bytes
  rw [count, Nat.zero_add, ← split] at same
  exact ⟨after, same, bytes, by omega⟩

theorem Begun.encode_front (begun : Begun plan writer summary (items.map source.row) capacity first)
    (split : items = front ++ rest) (writes : ∀ item ∈ items, source.Writes plan item)
    (adds : ∀ item ∈ front, source.Adds plan need item) (few : front.length ≤ Table.maxCount)
    (enough : (plan.header summary).length + 2
      + needInTurn need source.rowForm front ≤ capacity)
    (stops : ∀ next ∈ rest.head?, source.Adds plan need next ∧ front.length ≠ Table.maxCount ∧
      front ≠ [] ∧ capacity < (plan.header summary).length + 2
        + (front.flatMap source.rowForm).length + need next) :
    encode cursor capacity plan writer (items.map source.row) =
      .ok ⟨cursor, plan.form summary front.length (front.flatMap source.rowForm),
        rest.head?.map (source.row · |>.cursor)⟩ := by
  obtain ⟨after, same, bytes, room⟩ := begun.takes split writes adds few enough
  obtain ⟨-, -, started⟩ := begun.started
  refine begun.encode_eq (same.trans ?_) bytes
  cases rest with
  | nil => rfl
  | cons next others =>
    obtain ⟨fits, more, nonempty, lack⟩ := stops next rfl
    have writesNext := writes next (by simp [split])
    rw [addRows_lack writesNext fits (by rw [started]) more (by omega),
      if_neg (by simpa using nonempty)]
    rfl

theorem Begun.encode_none {next : α}
    (begun : Begun plan writer summary (items.map source.row) capacity first)
    (split : items = next :: rest) (writes : source.Writes plan next)
    (adds : source.Adds plan need next)
    (lack : capacity < (plan.header summary).length + 2 + need next) :
    encode cursor capacity plan writer (items.map source.row) =
      .error (.itemTooLarge (source.row next).cursor) := by
  have room := begun.room
  have count : first.session.count = 0 := by rw [begun.started.session]
  have few : first.session.count ≠ Table.maxCount := by
    rw [count]
    decide
  have lacks : first.output.room < need next := by omega
  have stopped : addRows plan ((next :: rest).map source.row) ⟨first.session, first.output⟩ = _ :=
    addRows_lack writes adds (by rw [begun.started.session]) few lacks
  rw [← split, if_pos count] at stopped
  unfold encode
  rw [begun.publish, Program.bind_error stopped]

end

end Part

/-! ## Parts in buffers of any size -/

namespace Part

variable {α : Type}

def ofRows (source : Source α) (plan : Table.Plan) (summary : Bytes) (cursor : Int32) (items : List α)
    (count : Nat) : Part where
  cursor := cursor
  bytes := plan.form summary count ((items.take count).flatMap source.rowForm)
  next? := (items.drop count).head?.map (source.row · |>.cursor)

/-- The bytes that a buffer must have for so many of the rows: those that they fill and those that the
last of them gives back. -/
def roomFor (source : Source α) (plan : Table.Plan) (summary : Bytes) (spare : α → Nat) (items : List α)
    (count : Nat) : Nat :=
  (plan.form summary count ((items.take count).flatMap source.rowForm)).length
    + (items[count - 1]?).elim 0 spare

def Source.needWith (source : Source α) (spare : α → Nat) (item : α) : Nat :=
  (source.rowForm item).length + spare item

/-- What is known of rows that are written into buffers of several sizes: there are so many that can
be written, and the lengths in each of them and in front of it give back a few bytes. -/
structure Sized (source : Source α) (plan : Table.Plan) (writer : Write Unit) (summary : Bytes)
    (spare : α → Nat) (items : List α) (most : Nat) : Prop where
  header : plan.Fits summary
  summarizes : ∃ own known need, (Write.Extends writer fun _ _ added => added = own ∧ known) ∧
    summary = (if plan.summary then own else []) ∧ (plan.summary → writer.Needs need) ∧
    need ≤ own.length + 2
  writes : ∀ item ∈ items, source.Writes plan item
  adds : ∀ item ∈ items.take most,
    source.Adds plan (source.needWith spare) item
  few : most ≤ Table.maxCount
  all : most ≤ items.length
  spare_le : ∀ item, spare item ≤ 4
  le_size : ∀ item, 4 ≤ (source.rowForm item).length

section
variable {source : Source α} {plan : Table.Plan} {writer : Write Unit} {summary : Bytes}
  {spare : α → Nat} {items : List α} {most count capacity : Nat} {cursor : Int32}

theorem Sized.begun_of_room (sized : Sized source plan writer summary spare items most)
    (enough : (plan.header summary).length + 5 ≤ capacity) (rows : List Row) :
    ∃ first, Begun plan writer summary rows capacity first := by
  obtain ⟨own, known, need, extending, same, needs, few⟩ := sized.summarizes
  have fits := sized.header
  have positive : 0 < (LengthForm.bits15.spell own.length).length := LengthForm.length_spell_pos _ _
  rw [same] at fits enough ⊢
  refine Part.begun_of_room extending needs fits ?_
  unfold Table.Plan.header Table.Plan.summaryForm at enough
  cases hasSummary : plan.summary with
  | false =>
    simp [hasSummary] at enough ⊢
    omega
  | true =>
    simp [hasSummary, LengthForm.frame] at enough ⊢
    omega

theorem Sized.begun_of_ok (sized : Sized source plan writer summary spare items most)
    {rows : List Row} {part : Part} (h : encode cursor capacity plan writer rows = .ok part) :
    ∃ first, Begun plan writer summary rows capacity first := by
  obtain ⟨own, known, need, extending, rfl, -⟩ := sized.summarizes
  exact Part.begun_of_ok extending h

/-- Of the rows that a buffer has room for, only the last one counts by what it gives back. -/
theorem Sized.roomFor_eq (sized : Sized source plan writer summary spare items most)
    (positive : count + 1 ≤ most) :
    (plan.header summary).length + 2 + needInTurn (source.needWith spare) source.rowForm
      (items.take (count + 1)) = roomFor source plan summary spare items (count + 1) := by
  have inside : count < items.length := Nat.lt_of_lt_of_le positive sized.all
  have found : items[count]? = some items[count] := List.getElem?_eq_getElem inside
  have covered := @needInTurn_concat _ (source.needWith spare) source.rowForm (items.take count)
    items[count] (Nat.le_add_right ..) fun item _ other _ => by
      have few := sized.spare_le item
      have positive := sized.le_size other
      unfold Source.needWith
      omega
  rw [List.take_succ_eq_append_getElem inside, covered]
  unfold roomFor Table.Plan.form
  rw [List.take_succ_eq_append_getElem inside, Nat.add_sub_cancel, found]
  simp only [Source.needWith, List.length_append, List.flatMap_append, List.flatMap_singleton,
    Bytes.length_ofNat, Option.elim_some]
  omega

theorem Sized.adds_next (sized : Sized source plan writer summary spare items most)
    {front rest : List α} {next : α} (split : items = front ++ next :: rest)
    (more : front.length < most) :
    source.Adds plan (source.needWith spare) next := by
  refine sized.adds next (List.mem_take_iff_getElem.mpr ⟨front.length, ?_, by simp [split]⟩)
  have inside : front.length < items.length := by simp [split]
  omega

/-- A buffer that has room for the rows at the front and none for the next one has exactly these. -/
theorem Sized.encode_front (sized : Sized source plan writer summary spare items most)
    {first : Draft} (begun : Begun plan writer summary (items.map source.row) capacity first)
    {front rest : List α} (split : items = front ++ rest) (nonempty : front ≠ [])
    (within : front.length ≤ most)
    (enough : (plan.header summary).length + 2 + needInTurn (source.needWith spare) source.rowForm
      front ≤ capacity)
    (stops : ∀ next ∈ rest.head?, front.length < most ∧ capacity < (plan.header summary).length + 2
      + (front.flatMap source.rowForm).length + source.needWith spare next) :
    encode cursor capacity plan writer (items.map source.row) =
      .ok (ofRows source plan summary cursor items front.length) := by
  have few := sized.few
  have part : ofRows source plan summary cursor items front.length =
      ⟨cursor, plan.form summary front.length (front.flatMap source.rowForm),
        rest.head?.map (source.row · |>.cursor)⟩ := by
    rw [split, ofRows, List.take_left, List.drop_left]
  rw [part]
  refine begun.encode_front split sized.writes (fun item member => sized.adds item ?_) (by omega)
    enough fun next following => ?_
  · rw [split, List.take_append, List.take_of_length_le within]
    exact List.mem_append_left _ member
  · obtain ⟨more, lack⟩ := stops next following
    obtain ⟨others, rfl⟩ := List.head?_eq_some_iff.mp following
    exact ⟨sized.adds_next split more, by omega, nonempty, lack⟩

theorem Sized.encode_exactly (sized : Sized source plan writer summary spare items most)
    (positive : 1 ≤ count) (within : count ≤ most)
    (enough : roomFor source plan summary spare items count ≤ capacity)
    (stops : count = items.length ∨
      count < most ∧ capacity < roomFor source plan summary spare items (count + 1)) :
    encode cursor capacity plan writer (items.map source.row) =
      .ok (ofRows source plan summary cursor items count) := by
  obtain ⟨earlier, rfl⟩ : ∃ earlier, count = earlier + 1 := ⟨count - 1, by omega⟩
  have room := sized.roomFor_eq within
  have inside : earlier + 1 ≤ items.length := Nat.le_trans within sized.all
  obtain ⟨front, rest, split, length⟩ : ∃ front rest, items = front ++ rest ∧
      front.length = earlier + 1 :=
    ⟨_, _, (List.take_append_drop (earlier + 1) items).symm, List.length_take_of_le inside⟩
  have taken : items.take (earlier + 1) = front := by rw [split, ← length, List.take_left]
  rw [taken] at room
  have filled : (plan.header summary).length + 5 ≤ capacity := by
    obtain ⟨first, others, same⟩ := List.exists_cons_of_length_pos (show 0 < front.length by omega)
    have large := sized.le_size first
    rw [same, needInTurn] at room
    omega
  obtain ⟨first, begun⟩ := sized.begun_of_room filled (items.map source.row)
  rw [← length]
  refine sized.encode_front begun split (by rintro rfl; cases length) (by omega) (by omega)
    fun next following => ?_
  obtain ⟨others, rfl⟩ := List.head?_eq_some_iff.mp following
  rcases stops with all | ⟨further, lack⟩
  · rw [split, List.length_append, List.length_cons] at all
    omega
  · refine ⟨by omega, ?_⟩
    have behind : items[front.length]? = some next := by simp [split]
    have more : items.take (front.length + 1) = front ++ [next] := by
      rw [split, List.take_length_add_append]
      rfl
    unfold roomFor Table.Plan.form at lack
    rw [← length, more, Nat.add_sub_cancel, behind] at lack
    simp only [List.length_append, List.flatMap_append, List.flatMap_singleton, Bytes.length_ofNat,
      Option.elim_some] at lack
    unfold Source.needWith
    omega

theorem Sized.encode_fewer (sized : Sized source plan writer summary spare items most)
    (positive : 1 ≤ count) (within : count ≤ most)
    (lack : capacity < roomFor source plan summary spare items count) {part : Part}
    (h : encode cursor capacity plan writer (items.map source.row) = .ok part) :
    ∃ fewer < count, part = ofRows source plan summary cursor items fewer := by
  obtain ⟨earlier, rfl⟩ : ∃ earlier, count = earlier + 1 := ⟨count - 1, by omega⟩
  have room := sized.roomFor_eq within
  obtain ⟨first, begun⟩ := sized.begun_of_ok h
  have left := begun.room
  have short : first.output.room < needInTurn (source.needWith spare) source.rowForm
      (items.take (earlier + 1)) := by omega
  have least : ∀ item ∈ items.take (earlier + 1),
      (source.rowForm item).length ≤ source.needWith spare item := fun item _ => Nat.le_add_right _ _
  obtain ⟨front, next, behind, cut, fits, ends⟩ := needInTurn_split least short
  have split : items = front ++ next :: (behind ++ items.drop (earlier + 1)) := by
    rw [← List.cons_append, ← List.append_assoc, ← cut, List.take_append_drop]
  have fewer : front.length < earlier + 1 := by
    have length := congrArg List.length cut
    rw [List.length_append, List.length_cons, List.length_take] at length
    omega
  cases front with
  | nil =>
    rw [List.flatMap_nil, List.length_nil] at ends
    have member : next ∈ items := by
      rw [split]
      exact List.mem_cons_self
    rw [begun.encode_none split (sized.writes next member)
      (sized.adds_next split (Nat.lt_of_lt_of_le (Nat.succ_pos _) within)) (by omega)] at h
    cases h
  | cons item others =>
    rw [sized.encode_front begun split (List.cons_ne_nil _ _) (by omega) (by omega)
      (by rintro _ ⟨⟩; exact ⟨by omega, by omega⟩)] at h
    cases h
    exact ⟨_, fewer, rfl⟩

theorem Sized.encode_at_least (sized : Sized source plan writer summary spare items most)
    (positive : 1 ≤ count) (within : count ≤ most)
    (enough : roomFor source plan summary spare items count ≤ capacity)
    (bounded : most = items.length ∨ capacity < roomFor source plan summary spare items most) :
    ∃ more, count ≤ more ∧ encode cursor capacity plan writer (items.map source.row) =
      .ok (ofRows source plan summary cursor items more) := by
  -- The induction is on the number of rows that may still follow.
  induction left : most - count generalizing count with
  | zero =>
    obtain rfl : count = most := by omega
    have all : count = items.length := bounded.resolve_right (Nat.not_lt.mpr enough)
    exact ⟨count, Nat.le_refl _, sized.encode_exactly positive within enough (.inl all)⟩
  | succ further ih =>
    by_cases lack : capacity < roomFor source plan summary spare items (count + 1)
    · exact ⟨count, Nat.le_refl _,
        sized.encode_exactly positive within enough (.inr ⟨by omega, lack⟩)⟩
    · obtain ⟨more, le, encoded⟩ := @ih (count + 1) (by omega) (by omega)
        (Nat.not_lt.mp lack) (by omega)
      exact ⟨more, by omega, encoded⟩

end

end Part

end MarketWire
