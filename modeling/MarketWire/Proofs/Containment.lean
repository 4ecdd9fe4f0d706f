import MarketWire.Proofs.FieldParts
import MarketWire.Proofs.Shortages

/-! Definitions of fields in buffers of given sizes.

A row is written behind room for the longest length, which is given back when the row is complete. So
a buffer that is filled exactly by some rows may be too small to write them into. How much larger it
must be is told by the last of these rows.
-/

set_option autoImplicit false

namespace MarketWire

namespace FieldDefinition

/-- What the lengths in a row and in front of it give back behind the last cell. -/
def spare (sent : Verbosity) (field : FieldDefinition) : Nat :=
  LengthForm.bits16.spare (Column.rowForm (columns sent) field).length +
    if sent.includes .normal then LengthForm.bits16.spare (Bytes.ofString field.longName).length else 0

theorem spare_le_four (sent : Verbosity) (field : FieldDefinition) : spare sent field ≤ 4 := by
  have most (length : Nat) : LengthForm.bits16.spare length ≤ 2 := by
    have positive := LengthForm.length_spell_pos .bits16 length
    change 3 - _ ≤ 2
    omega
  unfold spare
  split
  · exact Nat.add_le_add (most _) (most _)
  · exact Nat.le_trans (most _) (by decide)

theorem columns_single (sent : Verbosity) : ∀ column ∈ columns sent, column.IsSingle := by
  unfold columns
  cases sent.includes .normal <;>
    simp [minimalColumns, normalColumns, Column.IsSingle]

theorem rowNeed_add (sent : Verbosity) (field : FieldDefinition) :
    LengthForm.bits16.reserved + Column.rowNeed (columns sent) field =
      (LengthForm.bits16.frame (Column.rowForm (columns sent) field)).length + spare sent field := by
  have row := LengthForm.length_spell_add_spare .bits16 (Column.rowForm (columns sent) field).length
  have name := LengthForm.length_spell_add_spare .bits16 (Bytes.ofString field.acronym).length
  have longName := LengthForm.length_spell_add_spare .bits16 (Bytes.ofString field.longName).length
  unfold spare LengthForm.frame
  rw [List.length_append, ← row]
  suffices Column.rowNeed (columns sent) field = (Column.rowForm (columns sent) field).length +
      if sent.includes .normal then LengthForm.bits16.spare (Bytes.ofString field.longName).length
        else 0 by omega
  have reserved : LengthForm.bits16.reserved = 3 := rfl
  unfold columns
  cases sent.includes .normal <;>
    simp [minimalColumns, normalColumns, Column.rowNeed, Column.rowForm, needInTurn, Column.cellNeed,
      Column.cellForm, Cell.content, Primitive.setNeed, Primitive.setForm, Primitive.fixedForm,
      Primitive.payload, Primitive.ascii, DataType.setLayout?, LengthForm.frame] <;>
    omega

theorem four_le_length (sent : Verbosity) (field : FieldDefinition) :
    4 ≤ (Column.rowForm (columns sent) field).length := by
  unfold columns
  -- The field id and the link alone take two bytes each.
  cases sent.includes .normal with
  | false =>
    simp [minimalColumns, Column.rowForm, Column.cellForm, Cell.content, Primitive.setForm,
      Primitive.fixedForm, DataType.setLayout?]
  | true =>
    simp [minimalColumns, normalColumns, Column.rowForm, Column.cellForm, Cell.content,
      Primitive.setForm, Primitive.fixedForm, DataType.setLayout?]
    omega

end FieldDefinition

namespace Dictionary

variable {dictionary : Dictionary} {sent : Verbosity} {cursor : Int32}

def fieldsFrom (dictionary : Dictionary) (cursor : Int32) : List FieldDefinition :=
  dictionary.toList.filter (cursor ≤ ·.fid.toInt32)

def fieldPart (dictionary : Dictionary) (sent : Verbosity) (cursor : Int32) (header : Bytes)
    (count : Nat) : Part where
  cursor := cursor
  bytes := header ++ Bytes.ofNat 2 count ++ ((dictionary.fieldsFrom cursor).take count).flatMap
    fun field => LengthForm.bits16.frame (Column.rowForm (FieldDefinition.columns sent) field)
  next? := ((dictionary.fieldsFrom cursor).drop count).head?.map (·.fid.toInt32)

/-- The bytes that a buffer must have for so many of the definitions: those that they fill and those
that the last one of them gives back. -/
def fieldRoom (dictionary : Dictionary) (sent : Verbosity) (cursor : Int32) (header : Bytes)
    (count : Nat) : Nat :=
  (dictionary.fieldPart sent cursor header count).bytes.length
    + ((dictionary.fieldsFrom cursor)[count - 1]?).elim 0 (FieldDefinition.spare sent)

theorem rowsFrom_fieldEdition (wellFormed : dictionary.WellFormed) (tells : sent.includes .minimal)
    (cursor : Int32) : (dictionary.fieldEdition sent).rowsFrom cursor =
      (dictionary.fieldsFrom cursor).map (fieldSource sent).row := by
  have sends := fieldEdition_sends wellFormed tells
  unfold Edition.rowsFrom
  rw [if_pos sends.hasRows, sends.rows, Edition.dropWhile_eq_filter, List.filter_map]
  · rfl
  · exact List.pairwise_map.mpr (sends.ascending.imp Int32.le_of_lt)

theorem fieldSource_adds {plan : Table.Plan} (rows : plan.rowType = .elementList)
    {field : FieldDefinition} (fits : (fieldSource sent).RowFits field) :
    (fieldSource sent).Adds plan (fun field =>
      ((fieldSource sent).rowForm field).length + FieldDefinition.spare sent field) field := by
  intro session phase more
  have suits := FieldDefinition.cells_suit field sent
  have filled := FieldDefinition.columns_filled sent
  have needs := Column.writeRow_needs filled (FieldDefinition.columns_single sent) suits fits.1
  have content := Column.writeRow_extends filled fun column member => (suits column member).uniform
  have added := @Part.addRow_needs plan ((fieldSource sent).row field) session _ _ _ rfl
    (Part.hasPayload_of_elementList rows) content needs fits.2 phase more
  rwa [FieldDefinition.rowNeed_add] at added

theorem encodeFields_sized (wellFormed : dictionary.WellFormed) (tells : sent.includes .minimal)
    {enough : Nat} {whole : Part} (encoded : dictionary.encodeFields sent cursor enough = .ok whole) :
    ∃ plan summary most, Part.Sized (fieldSource sent) plan dictionary.fieldSummary summary
        (FieldDefinition.spare sent) (dictionary.fieldsFrom cursor) most ∧
      whole = Part.ofRows (fieldSource sent) plan summary cursor (dictionary.fieldsFrom cursor) most ∧
      ∀ capacity, dictionary.encodeFields sent cursor capacity =
        Part.encode cursor capacity plan dictionary.fieldSummary
          ((dictionary.fieldsFrom cursor).map (fieldSource sent).row) := by
  have sends := fieldEdition_sends wellFormed tells
  have rows := rowsFrom_fieldEdition wellFormed tells cursor
  have subset : dictionary.fieldsFrom cursor ⊆ dictionary.toList := fun _ member => (List.mem_filter.mp member).1
  have start := Edition.cursor_of_encodePart encoded
  obtain ⟨definition, defined, known, taken, left, takes⟩ :=
    Edition.encodePart_ok sends subset rows encoded
  have front : (dictionary.fieldsFrom cursor).take taken.length = taken := by
    rw [takes.split, List.take_left]
  have behind : (dictionary.fieldsFrom cursor).drop taken.length = left := by
    rw [takes.split, List.drop_left]
  refine ⟨_, _, taken.length, ⟨takes.header, ?_, ?_, ?_, takes.few, ?_, ?_, ?_⟩, ?_, ?_⟩
  · by_cases isFirst : cursor ≤ (dictionary.fieldEdition sent).first
    · obtain ⟨need, needs, few⟩ := Summary.write_needs fieldElements_plain (known isFirst)
      exact ⟨_, _, need, sends.summarizes, by simp [Edition.partPlan], fun _ => needs, few⟩
    · exact ⟨_, _, 0, sends.summarizes, by simp [Edition.partPlan],
        fun hasSummary => absurd (of_decide_eq_true hasSummary) isFirst, Nat.zero_le _⟩
  · exact fun field member => sends.writes field (subset member) _ rfl
  · intro field member
    rw [front] at member
    exact fieldSource_adds rfl (takes.rows field member)
  · rw [takes.split, List.length_append]
    exact Nat.le_add_right _ _
  · exact FieldDefinition.spare_le_four sent
  · intro field
    have large := FieldDefinition.four_le_length sent field
    change 4 ≤ (LengthForm.bits16.frame _).length
    rw [LengthForm.frame, List.length_append]
    exact Nat.le_add_left_of_le large
  · obtain ⟨own, bytes, next⟩ := whole
    obtain rfl : own = cursor := start
    unfold Part.ofRows
    rw [front, behind]
    exact congrArg₂ (Part.mk own) takes.bytes takes.next
  · intro capacity
    rw [← rows]
    exact Edition.encodePart_eq sends.hasRows defined cursor capacity

/-- A buffer has so many of the definitions exactly when it has the bytes that they fill and those that
the last one of them gives back, at most four; a buffer of any size below the next one's has no more. -/
theorem encodeFields_contains (reachable : Reachable dictionary) (tells : sent.includes .minimal)
    {enough : Nat} {whole : Part} (encoded : dictionary.encodeFields sent cursor enough = .ok whole) :
    ∃ header most, whole = dictionary.fieldPart sent cursor header most ∧
      most ≤ (dictionary.fieldsFrom cursor).length ∧
      ∀ count, 1 ≤ count → count ≤ most →
        dictionary.fieldRoom sent cursor header count ≤
          (dictionary.fieldPart sent cursor header count).bytes.length + 4 ∧
        ∀ capacity,
          (dictionary.fieldRoom sent cursor header count ≤ capacity →
            count = (dictionary.fieldsFrom cursor).length ∨
              count < most ∧ capacity < dictionary.fieldRoom sent cursor header (count + 1) →
            dictionary.encodeFields sent cursor capacity =
              .ok (dictionary.fieldPart sent cursor header count)) ∧
          (dictionary.fieldRoom sent cursor header count ≤ capacity →
            whole.isLast ∨ capacity < dictionary.fieldRoom sent cursor header most →
            ∃ more, count ≤ more ∧ dictionary.encodeFields sent cursor capacity =
              .ok (dictionary.fieldPart sent cursor header more)) ∧
          (capacity < dictionary.fieldRoom sent cursor header count →
            ∀ part, dictionary.encodeFields sent cursor capacity = .ok part →
              ∃ fewer < count, part = dictionary.fieldPart sent cursor header fewer) := by
  obtain ⟨plan, summary, most, sized, rfl, equal⟩ :=
    encodeFields_sized reachable.wellFormed tells encoded
  refine ⟨plan.header summary, most, rfl, sized.all, fun count positive within => ⟨?_, fun capacity => ?_⟩⟩
  · refine Nat.add_le_add_left ?_ _
    cases (dictionary.fieldsFrom cursor)[count - 1]? with
    | none => exact Nat.zero_le 4
    | some field => exact FieldDefinition.spare_le_four sent field
  rw [equal]
  refine ⟨sized.encode_exactly positive within, fun room last => ?_, fun lack part => ?_⟩
  · refine sized.encode_at_least positive within room (last.imp_left fun isLast => ?_)
    have exhausted : ((dictionary.fieldsFrom cursor).drop most).head? = none :=
      Option.map_eq_none_iff.mp (Option.isNone_iff_eq_none.mp isLast)
    have empty := List.drop_eq_nil_iff.mp (List.head?_eq_none_iff.mp exhausted)
    exact Nat.le_antisymm sized.all empty
  · exact sized.encode_fewer positive within lack

/-- A buffer that is filled exactly by both rows has the first one alone. -/
theorem encodeFields_exact_quotes :
    let told (result : Except DictionaryError Part) :=
      result.toOption.map fun part => (part.bytes.length, part.next?)
    told (quotes.encodeFields .minimal (-1) 1000) = some (132, none) ∧
      told (quotes.encodeFields .minimal (-1) 132) = some (116, some 22) := by
  unfold encodeFields fieldEdition
  rw [minFid?_eq_head?]
  decide +kernel

/-- Both rows stand in every buffer that has the room that the second one gives back. -/
theorem encodeFields_contains_quotes :
    ∃ whole header, quotes.encodeFields .minimal (-1) 1000 = .ok whole ∧ whole.isLast ∧
      ∀ capacity, quotes.fieldRoom .minimal (-1) header 2 ≤ capacity →
        quotes.encodeFields .minimal (-1) capacity = .ok (quotes.fieldPart .minimal (-1) header 2) := by
  have two : (quotes.fieldsFrom (-1)).length = 2 := by decide +kernel
  have ended : (quotes.encodeFields .minimal (-1) 1000).toOption.any (·.isLast) := by
    unfold encodeFields fieldEdition
    rw [minFid?_eq_head?]
    decide +kernel
  cases encoded : quotes.encodeFields .minimal (-1) 1000 with
  | error error =>
    rw [encoded] at ended
    cases ended
  | ok whole =>
    rw [encoded] at ended
    have isLast : whole.isLast := ended
    obtain ⟨header, most, same, few, contains⟩ := encodeFields_contains quotes_reachable rfl encoded
    have all : 2 ≤ most := by
      rw [same] at isLast
      have exhausted : ((quotes.fieldsFrom (-1)).drop most).head? = none :=
        Option.map_eq_none_iff.mp (Option.isNone_iff_eq_none.mp isLast)
      have empty := List.drop_eq_nil_iff.mp (List.head?_eq_none_iff.mp exhausted)
      omega
    refine ⟨whole, header, rfl, isLast, fun capacity room => ?_⟩
    exact ((contains 2 (by decide) all).2 capacity).1 room (.inl two.symm)

end Dictionary

end MarketWire
