import Mathlib.Data.List.Chain
import MarketWire.Proofs.EnumParts
import MarketWire.Proofs.SetParts
import MarketWire.Proofs.Capacities

/-! Publications into buffers of any sizes.

Each part starts behind the one before it and has the rows up to the cursor of the next one, so a
publication comes to an end whatever buffers it is given. What a row looks like in a part does not
depend on the buffers.
-/

set_option autoImplicit false

namespace MarketWire

def Part.covers (part : Part) (cursor : Int32) : Bool :=
  decide (part.cursor ≤ cursor) && part.next?.all (cursor < ·)

namespace Publication

def answer (publication : Publication) (capacities : Nat → Nat) :
    Nat → Option (Except DictionaryError Part)
  | 0 => (publication.next (capacities 0)).1
  | requests + 1 =>
    (publication.next (capacities 0)).2.answer (fun request => capacities (request + 1)) requests

/-- Requests are answered by parts, at most so many, then by an error if none of the parts is the last
one, and then by nothing. Each part fits its buffer and starts where the one before it ends, which is
behind the start of that one. -/
structure Progresses (publication : Publication) (capacities : Nat → Nat) (most : Nat)
    (parts : List Part) (failure : Option DictionaryError) : Prop where
  answers : ∀ request, publication.answer capacities request =
    (parts.map .ok ++ failure.toList.map .error)[request]?
  ends : failure = none ↔ ∃ part ∈ parts, part.isLast
  few : parts.length ≤ most
  fits : ∀ request, ∀ part ∈ parts[request]?, part.bytes.length ≤ capacities request
  ascending : parts.Pairwise (·.cursor < ·.cursor)
  joined : parts.IsChain fun part following => part.next? = some following.cursor

theorem answer_done {publication : Publication} (isDone : publication.isDone = true)
    (capacities : Nat → Nat) (request : Nat) : publication.answer capacities request = none := by
  have next (capacity : Nat) : publication.next capacity = (none, publication) := by
    rw [Publication.next, if_pos isDone]
  induction request generalizing capacities with
  | zero => rw [answer, next]
  | succ request ih => rw [answer, next, ih]

section
variable {encode : Int32 → Nat → Except DictionaryError Part} {rowCount : Nat} {cursor : Int32}
  {capacities : Nat → Nat}

theorem progresses_error {error : DictionaryError} (h : encode cursor (capacities 0) = .error error)
    (most : Nat) : Progresses ⟨encode, rowCount, cursor, false⟩ capacities most [] (some error) where
  answers request := by
    cases request with
    | zero => simp [answer, next, h]
    | succ request => simp [answer, next, h, answer_done]
  ends := by simp
  few := Nat.zero_le _
  fits := by simp
  ascending := .nil
  joined := .nil

theorem progresses_last {part : Part} (h : encode cursor (capacities 0) = .ok part)
    (last : part.next? = none) (fits : part.bytes.length ≤ capacities 0) {most : Nat} (positive : 1 ≤ most) :
    Progresses ⟨encode, rowCount, cursor, false⟩ capacities most [part] none where
  answers request := by
    cases request with
    | zero => simp [answer, next, h, last]
    | succ request => simp [answer, next, h, last, answer_done]
  ends := by simp [Part.isLast, last]
  few := positive
  fits request found member := by
    cases request with
    | zero =>
      cases member
      exact fits
    | succ request => simp at member
  ascending := List.pairwise_singleton _ _
  joined := .singleton _

theorem Progresses.cons {part : Part} {following : Int32} {most : Nat} {parts : List Part}
    {failure : Option DictionaryError} (h : encode cursor (capacities 0) = .ok part)
    (next : part.next? = some following) (fits : part.bytes.length ≤ capacities 0)
    (progresses : Progresses ⟨encode, rowCount, following, false⟩
      (fun request => capacities (request + 1)) most parts failure)
    (behind : ∀ other ∈ parts, part.cursor < other.cursor)
    (first : ∀ other ∈ parts.head?, other.cursor = following) :
    Progresses ⟨encode, rowCount, cursor, false⟩ capacities (most + 1) (part :: parts) failure where
  answers request := by
    cases request with
    | zero => simp [answer, Publication.next, h, next]
    | succ request => simpa [answer, Publication.next, h, next] using progresses.answers request
  ends := by simp [progresses.ends, Part.isLast, next]
  few := Nat.succ_le_succ progresses.few
  fits request found member := by
    cases request with
    | zero =>
      cases member
      exact fits
    | succ request => exact progresses.fits request found (by simpa using member)
  ascending := List.pairwise_cons.mpr ⟨behind, progresses.ascending⟩
  joined := by
    refine List.isChain_cons.mpr ⟨fun other member => ?_, progresses.joined⟩
    rw [next, first other member]

end

theorem Progresses.mono {publication : Publication} {capacities : Nat → Nat} {most more : Nat}
    {parts : List Part} {failure : Option DictionaryError}
    (progresses : Progresses publication capacities most parts failure) (le : most ≤ more) :
    Progresses publication capacities more parts failure :=
  { progresses with few := Nat.le_trans progresses.few le }

end Publication

namespace Edition

variable {α β : Type} {edition : Edition α} {source : Part.Source β} {items : List β}
  {summary : Bytes} {known : Prop}

def Has (edition : Edition α) (source : Part.Source β) (items : List β) (summary : Bytes)
    (part : Part) : Prop :=
  ∃ definition isFirst here left,
    Part.Takes source (edition.partPlan definition isFirst) (if isFirst then summary else []) here part
      (items.filter fun item => part.covers (source.row item).cursor) left

theorem length_le_of_encodePart (sends : edition.Sends source items summary known) {left : List β}
    (subset : left ⊆ items) {cursor : Int32} {capacity : Nat} {part : Part}
    (rows : edition.rowsFrom cursor = left.map source.row)
    (h : edition.encodePart cursor capacity = .ok part) : part.bytes.length ≤ capacity := by
  obtain ⟨definition, defined⟩ := encodedDefinition_of_ok h
  rw [encodePart_eq sends.hasRows defined, rows] at h
  exact Part.length_le_of_encode (fun item member => sends.writes item (subset member) _ rfl)
    sends.summarizes.keepsRoom h

/-- The rows that belong to a part are those that it takes. -/
theorem filter_covers {before taken left : List β} {part : Part}
    (ascending : (before ++ (taken ++ left)).Pairwise fun item other =>
      (source.row item).cursor < (source.row other).cursor)
    (below : ∀ item ∈ before, (source.row item).cursor < part.cursor)
    (above : ∀ item ∈ taken ++ left, part.cursor ≤ (source.row item).cursor)
    (next : part.next? = left.head?.map (source.row · |>.cursor)) :
    (before ++ (taken ++ left)).filter (fun item => part.covers (source.row item).cursor) = taken := by
  have none_before : before.filter (fun item => part.covers (source.row item).cursor) = [] := by
    refine List.filter_eq_nil_iff.mpr fun item member => ?_
    have less := Int32.not_le.mpr (below item member)
    simp [Part.covers, less]
  have behind := (List.pairwise_append.mp ascending).2.1
  obtain ⟨-, ordered, across⟩ := List.pairwise_append.mp behind
  have all_taken : taken.filter (fun item => part.covers (source.row item).cursor) = taken := by
    refine List.filter_eq_self.mpr fun item member => ?_
    have reached := above item (List.mem_append_left _ member)
    cases left with
    | nil => simp [Part.covers, next, reached]
    | cons first rest =>
      have inside := across item member first List.mem_cons_self
      simp [Part.covers, next, reached, inside]
  have none_left : left.filter (fun item => part.covers (source.row item).cursor) = [] := by
    cases left with
    | nil => rfl
    | cons first rest =>
      have least := (List.pairwise_cons.mp ordered).1
      refine List.filter_eq_nil_iff.mpr fun item member => ?_
      have reached : (source.row first).cursor ≤ (source.row item).cursor := by
        rcases List.mem_cons.mp member with rfl | later
        · exact Int32.le_refl _
        · exact Int32.le_of_lt (least item later)
      simp [Part.covers, next, Int32.not_lt.mpr reached]
  rw [List.filter_append, List.filter_append, none_before, all_taken, none_left, List.nil_append,
    List.append_nil]

-- The rows that are left bound the parts that are still to come: this carries the induction.
theorem progresses_from (sends : edition.Sends source items summary known) {rowCount : Nat}
    {capacities : Nat → Nat} {cursor : Int32} {before left : List β} (split : items = before ++ left)
    (rows : edition.rowsFrom cursor = left.map source.row)
    (below : ∀ item ∈ before, (source.row item).cursor < cursor)
    (above : ∀ item ∈ left, cursor ≤ (source.row item).cursor) :
    ∃ parts failure, Publication.Progresses ⟨edition.encodePart, rowCount, cursor, false⟩ capacities
        (max 1 left.length) parts failure ∧
      (∀ part ∈ parts.head?, part.cursor = cursor) ∧
      ∀ part ∈ parts, cursor ≤ part.cursor ∧ edition.Has source items summary part := by
  induction size : left.length using Nat.strong_induction_on
    generalizing capacities cursor before left with
  | _ count ih =>
  subst size
  have subset : left ⊆ items := split ▸ List.subset_append_right _ _
  cases encoded : edition.encodePart cursor (capacities 0) with
  | error error =>
    exact ⟨[], some error, Publication.progresses_error encoded _, by simp, by simp⟩
  | ok part =>
    have fits := length_le_of_encodePart sends subset rows encoded
    obtain ⟨definition, -, -, taken, rest, takes⟩ := encodePart_ok sends subset rows encoded
    have start := cursor_of_encodePart encoded
    rw [takes.split] at split above
    have ascending := sends.ascending
    rw [split] at ascending
    have own : items.filter (fun item => part.covers (source.row item).cursor) = taken := by
      rw [split]
      exact filter_covers ascending (start ▸ below) (start ▸ above) takes.next
    have has : edition.Has source items summary part := by
      refine ⟨definition, cursor ≤ edition.first, left, rest, ?_⟩
      rw [own]
      simpa using takes
    cases rest with
    | nil =>
      refine ⟨[part], none, Publication.progresses_last encoded takes.next fits
        (Nat.le_max_left _ _), ?_, ?_⟩
      · simpa using start
      · simpa [start, Int32.le_refl] using has
    | cons item behind =>
      -- The next part starts at a row behind the first one of this part.
      obtain ⟨first, others, rfl⟩ :=
        List.exists_cons_of_ne_nil (takes.progress (List.cons_ne_nil _ _))
      have across := (List.pairwise_append.mp (List.pairwise_append.mp ascending).2.1).2.2
      have forward : cursor < (source.row item).cursor :=
        Int32.lt_of_le_of_lt (above first (by simp)) (across first (by simp) item (by simp))
      have fewer : (item :: behind).length < left.length := by
        rw [takes.split]
        simp only [List.length_append, List.length_cons]
        omega
      have here : items = (before ++ first :: others) ++ item :: behind := by
        rw [split, List.append_assoc]
      have lower : ∀ earlier ∈ before ++ first :: others,
          (source.row earlier).cursor < (source.row item).cursor := by
        rw [← List.append_assoc] at ascending
        exact fun earlier member =>
          (List.pairwise_append.mp ascending).2.2 earlier member item List.mem_cons_self
      have upper : ∀ later ∈ item :: behind, (source.row item).cursor ≤ (source.row later).cursor := by
        have ordered := (List.pairwise_append.mp (List.pairwise_append.mp ascending).2.1).2.1
        refine List.forall_mem_cons.mpr ⟨Int32.le_refl _, fun later member => ?_⟩
        exact Int32.le_of_lt ((List.pairwise_cons.mp ordered).1 later member)
      obtain ⟨parts, failure, progresses, starts, known⟩ := @ih _ fewer
        (fun request => capacities (request + 1)) _ _ _ here (sends.rowsFrom_cursor here) lower upper rfl
      have most : max 1 (item :: behind).length + 1 ≤ max 1 left.length := by
        simp only [List.length_cons] at fewer ⊢
        omega
      have whole := progresses.cons encoded takes.next fits
        (fun other member => start ▸ Int32.lt_of_lt_of_le forward (known other member).1) starts
      refine ⟨part :: parts, failure, whole.mono most, by simpa using start, ?_⟩
      refine List.forall_mem_cons.mpr ⟨⟨start ▸ Int32.le_refl _, has⟩, fun other member => ?_⟩
      obtain ⟨later, has⟩ := known other member
      exact ⟨Int32.le_trans (Int32.le_of_lt forward) later, has⟩

/-- An edition is cut into parts, whatever buffers it is given. -/
theorem Sends.progresses (sends : edition.Sends source items summary known) (capacities : Nat → Nat) :
    ∃ parts failure, (Publication.ofEdition edition).Progresses capacities (max 1 items.length) parts
        failure ∧ ∀ part ∈ parts, edition.Has source items summary part := by
  obtain ⟨parts, failure, progresses, -, has⟩ := @progresses_from _ _ _ _ _ _ _ sends
    edition.rows.length capacities _ [] items rfl sends.rowsFrom_first (by simp) sends.first
  exact ⟨parts, failure, progresses, fun part member => (has part member).2⟩

theorem progresses_bare (noRows : edition.hasRows = false)
    (summarizes : Write.Extends edition.summary fun _ _ added => added = summary ∧ known)
    (capacities : Nat → Nat) (most : Nat) :
    ∃ parts failure, (Publication.ofEdition edition).Progresses capacities (max 1 most) parts failure ∧
      ∀ part ∈ parts, ∃ (plan : Table.Plan) (form : Bytes), plan.rowType = .elementList ∧
        plan.Fits form ∧ part.bytes = plan.form form 0 [] := by
  have rowless (cursor : Int32) : edition.rowsFrom cursor = [] := by
    unfold rowsFrom
    rw [noRows]
    rfl
  cases encoded : edition.encodePart edition.first (capacities 0) with
  | error error => exact ⟨[], some error, Publication.progresses_error encoded _, by simp⟩
  | ok part =>
    have written := encoded
    unfold encodePart plan at written
    cases defined : Column.encodedDefinition edition.columns with
    | error error =>
      rw [defined] at written
      cases written
    | ok definition =>
      rw [defined, rowless] at written
      let source : Part.Source Part.Row := ⟨(·), fun _ => [], fun _ => [], fun _ => True⟩
      have writes : ∀ plan, ∀ row ∈ [], source.Writes plan row := fun _ _ member => by cases member
      have fits := Part.length_le_of_encode (writes _) summarizes.keepsRoom written
      obtain ⟨-, -, taken, left, takes⟩ := Part.encode_ok (writes _) summarizes written
      obtain ⟨rfl, rfl⟩ := List.append_eq_nil_iff.mp takes.split.symm
      refine ⟨[part], none, Publication.progresses_last encoded takes.next fits
        (Nat.le_max_left _ _), ?_⟩
      exact List.forall_mem_singleton.mpr ⟨_, _, rfl, takes.header, takes.bytes⟩

end Edition

/-! ## What parts hold -/

namespace Part

def IsSeries (part : Part) (rows : List Bytes) : Prop :=
  ∃ header, Series.decode part.bytes = .ok ⟨header, rows.map (.container .elementList ·)⟩ ∧
    header.count = rows.length

def IsVector (part : Part) (rows : List (Nat × Bytes)) : Prop :=
  ∃ header, Vector.decode part.bytes = .ok ⟨header, rows.map fun (index, row) =>
    ⟨index, some .set, none, .container .elementList row⟩⟩ ∧ header.count = rows.length

theorem isSeries_bare {part : Part} {plan : Table.Plan} {form : Bytes}
    (rowType : plan.rowType = .elementList) (fits : plan.Fits form)
    (bytes : part.bytes = plan.form form 0 []) : part.IsSeries [] := by
  have hasPayload : plan.rowType ≠ .noData := by
    rw [rowType]
    decide
  have decoded := @Series.decode_form Bytes plan form fits hasPayload [] (·) (Nat.zero_le _) (by simp)
  exact ⟨_, bytes ▸ decoded, rfl⟩

theorem isVector_bare {part : Part} {plan : Table.Plan} {form : Bytes}
    (rowType : plan.rowType = .elementList) (fits : plan.Fits form)
    (bytes : part.bytes = plan.form form 0 []) : part.IsVector [] := by
  have hasPayload : plan.rowType ≠ .noData := by
    rw [rowType]
    decide
  have decoded := @Vector.decode_form Bytes plan form fits hasPayload .set rfl [] (fun _ => 0) (·)
    (Nat.zero_le _) (by simp) (by simp)
  exact ⟨_, bytes ▸ decoded, rfl⟩

end Part

namespace Edition

variable {α β : Type} {edition : Edition α} {source : Part.Source β} {items : List β}
  {summary : Bytes} {part : Part}

theorem Has.isSeries (has : edition.Has source items summary part)
    (unlabelled : ∀ item, source.label item = []) :
    part.IsSeries ((items.filter fun item => part.covers (source.row item).cursor).map source.form) := by
  obtain ⟨definition, isFirst, here, left, takes⟩ := has
  have decoded := series_of_takes takes unlabelled
  refine ⟨edition.header definition summary isFirst _, ?_, (List.length_map _).symm⟩
  rw [decoded, List.map_map]
  rfl

theorem Has.isVector {index : β → UInt32} (has : edition.Has source items summary part)
    (labelled : ∀ item, source.label item =
      [Vector.Action.set.code] ++ Varying.form30 (index item).toNat)
    (indices : ∀ item, (index item).toNat ≤ Varying.max30) :
    part.IsVector ((items.filter fun item => part.covers (source.row item).cursor).map fun item =>
      ((index item).toNat, source.form item)) := by
  obtain ⟨definition, isFirst, here, left, takes⟩ := has
  have decoded := vector_of_takes takes labelled indices
  refine ⟨edition.header definition summary isFirst _, ?_, (List.length_map _).symm⟩
  rw [decoded, List.map_map]
  rfl

end Edition

/-- Whatever buffers a publication is given, it makes progress, and its parts hold what they should. -/
def Publication.Partitions (publication : Publication) (rowCount : Nat) (Holds : Part → Prop) : Prop :=
  ∀ capacities, ∃ parts failure,
    publication.Progresses capacities (max 1 rowCount) parts failure ∧ ∀ part ∈ parts, Holds part

theorem Edition.partitions {α β : Type} {edition : Edition α} {source : Part.Source β} {items : List β}
    {summary : Bytes} {known : Prop} {Holds : Part → Prop}
    (summarizes : Write.Extends edition.summary fun _ _ added => added = summary ∧ known)
    (sends : edition.hasRows = true → edition.Sends source items summary known)
    (full : edition.hasRows = true → ∀ part, edition.Has source items summary part → Holds part)
    (bare : edition.hasRows = false → ∀ (part : Part) (plan : Table.Plan) (form : Bytes),
      plan.rowType = .elementList → plan.Fits form → part.bytes = plan.form form 0 [] → Holds part) :
    (Publication.ofEdition edition).Partitions items.length Holds := by
  intro capacities
  cases hasRows : edition.hasRows with
  | true =>
    obtain ⟨parts, failure, progresses, has⟩ := (sends hasRows).progresses capacities
    exact ⟨parts, failure, progresses, fun part member => full hasRows part (has part member)⟩
  | false =>
    obtain ⟨parts, failure, progresses, has⟩ :=
      progresses_bare hasRows summarizes capacities items.length
    refine ⟨parts, failure, progresses, fun part member => ?_⟩
    obtain ⟨plan, form, rowType, fits, bytes⟩ := has part member
    exact bare hasRows part plan form rowType fits bytes

namespace Verbosity

variable {verbosity : Verbosity}

theorem includes_minimal (h : decide (verbosity ≠ .info) = true) : verbosity.includes .minimal := by
  cases verbosity with
  | info => cases h
  | _ => rfl

theorem eq_info (h : decide (verbosity ≠ .info) = false) : verbosity = .info :=
  not_not.mp (of_decide_eq_false h)

end Verbosity

namespace Dictionary

variable {dictionary : Dictionary}

def fieldRowsIn (dictionary : Dictionary) (sent : Verbosity) (part : Part) : List Bytes :=
  if sent = .info then []
  else (dictionary.toList.filter fun field => part.covers field.fid.toInt32).map
    (Column.rowForm (FieldDefinition.columns sent))

def enumRowsIn (dictionary : Dictionary) (sent : Verbosity) (part : Part) : List Bytes :=
  if sent = .info then []
  else (dictionary.placedTables.filter fun item => part.covers (.ofNat item.2)).map
    fun item => Column.rowForm (EnumTable.columns sent) item.1

theorem fields_partition (wellFormed : dictionary.WellFormed) (sent : Verbosity) :
    (Publication.ofDictionary dictionary .fields sent).Partitions dictionary.size fun part =>
      part.IsSeries (dictionary.fieldRowsIn sent part) := by
  have all : dictionary.toList.length = dictionary.size := by
    rw [toList, List.length_map]
    exact Std.ExtTreeMap.length_toList
  rw [← all]
  refine Edition.partitions (Summary.write_extends _)
    (fun rows => fieldEdition_sends wellFormed (Verbosity.includes_minimal rows)) ?_ ?_
  · intro rows part has
    rw [fieldRowsIn, if_neg (of_decide_eq_true rows)]
    exact has.isSeries fun _ => rfl
  · intro noRows part plan form rowType fits bytes
    rw [fieldRowsIn, if_pos (Verbosity.eq_info noRows)]
    exact Part.isSeries_bare rowType fits bytes

theorem enums_partition (wellFormed : dictionary.WellFormed) (sent : Verbosity) :
    (Publication.ofDictionary dictionary .enums sent).Partitions dictionary.tables.size fun part =>
      part.IsSeries (dictionary.enumRowsIn sent part) := by
  have all : dictionary.placedTables.length = dictionary.tables.size := by simp [placedTables]
  rw [← all]
  refine Edition.partitions (Summary.write_extends _)
    (fun rows => enumEdition_sends wellFormed (Verbosity.includes_minimal rows)) ?_ ?_
  · intro rows part has
    rw [enumRowsIn, if_neg (of_decide_eq_true rows)]
    exact has.isSeries fun _ => rfl
  · intro noRows part plan form rowType fits bytes
    rw [enumRowsIn, if_pos (Verbosity.eq_info noRows)]
    exact Part.isSeries_bare rowType fits bytes

end Dictionary

namespace GlobalSets

variable {κ : Type} [key : PublishedKey κ]

def rowsIn (sets : GlobalSets κ) (sent : Verbosity) (part : Part) : List (Nat × Bytes) :=
  if sent = .info then []
  else (sets.toList.filter fun definition => part.covers (.ofNat definition.id.toNat)).map
    fun definition =>
      (definition.id.toUInt32.toNat, Column.rowForm (SetDefinition.columns κ) definition)

theorem sets_partition [lawful : LawfulPublishedKey κ] (sets : GlobalSets κ) (sent : Verbosity) :
    (Publication.ofSets sets sent).Partitions sets.size fun part =>
      part.IsVector (sets.rowsIn sent part) := by
  have all : sets.toList.length = sets.size := by
    rw [toList, List.length_map]
    exact Std.ExtTreeMap.length_toList
  rw [← all]
  refine Edition.partitions (Summary.write_extends sets.elements)
    (fun rows => edition_sends (Verbosity.includes_minimal rows)) ?_ ?_
  · intro rows part has
    rw [rowsIn, if_neg (of_decide_eq_true rows)]
    refine has.isVector (fun _ => rfl) fun definition => ?_
    rw [UInt16.toNat_toUInt32]
    exact Nat.le_trans (Nat.le_of_lt definition.id.toNat_lt) (by decide)
  · intro noRows part plan form rowType fits bytes
    rw [rowsIn, if_pos (Verbosity.eq_info noRows)]
    exact Part.isVector_bare rowType fits bytes

end GlobalSets

namespace Publication

/-- Whatever buffers a publication is given, it comes to an end, and its parts cut all of its rows into
blocks whose bytes do not depend on the buffers. -/
theorem partitions_rows (sent : Verbosity) :
    (∀ dictionary, Dictionary.Reachable dictionary →
      (ofDictionary dictionary .fields sent).Partitions dictionary.size (fun part =>
        part.IsSeries (dictionary.fieldRowsIn sent part)) ∧
      (ofDictionary dictionary .enums sent).Partitions dictionary.tables.size fun part =>
        part.IsSeries (dictionary.enumRowsIn sent part)) ∧
    (∀ sets : GlobalSets Int16, (ofSets sets sent).Partitions sets.size fun part =>
      part.IsVector (sets.rowsIn sent part)) ∧
    ∀ sets : GlobalSets String, (ofSets sets sent).Partitions sets.size fun part =>
      part.IsVector (sets.rowsIn sent part) :=
  ⟨fun _ reachable => ⟨Dictionary.fields_partition reachable.wellFormed sent,
    Dictionary.enums_partition reachable.wellFormed sent⟩,
    fun sets => sets.sets_partition sent, fun sets => sets.sets_partition sent⟩

/-- The second of two rows finds no room in a second buffer that is smaller than the first one. -/
theorem partitions_rows_quotes :
    let publication := ofDictionary Dictionary.quotes .fields .minimal
    let capacities := fun request => if request = 0 then 120 else 70
    publication.answer capacities 1 = some (.error (.itemTooLarge 22)) ∧
      ∃ parts failure, publication.Progresses capacities 2 parts failure ∧
        ∀ part ∈ parts, part.IsSeries (Dictionary.quotes.fieldRowsIn .minimal part) := by
  refine ⟨?_, ((partitions_rows .minimal).1 _ Dictionary.quotes_reachable).1 _⟩
  unfold ofDictionary Dictionary.fieldEdition
  rw [Dictionary.minFid?_eq_head?]
  decide +kernel

end Publication

end MarketWire
