import MarketWire.Proofs.EntryReaders
import MarketWire.Proofs.Records

/-! Faults among the set-defined entries of a record.

A set-defined entry with a length of its own tells where it ends, whatever its payload is. Yet the reading of
set-defined entries ends with the first one whose payload has no value: its marker stands for all of them from
there on, and the standard entries follow.
-/

set_option autoImplicit false

namespace MarketWire

/-! ## Lengths -/

def LengthForm.Tells (form : LengthForm) (spelled : Bytes) (length : Nat) : Prop :=
  ∀ rest, form.read (spelled ++ rest) = .ok length rest

namespace Read

variable {form : LengthForm} {bytes spelled payload rest : Bytes}

theorem framed_of_tells (tells : form.Tells spelled payload.length) (rest : Bytes) :
    framed form (spelled ++ (payload ++ rest)) = .ok payload rest :=
  (Program.bind_ok (tells _)).trans (bytes_append rfl rest)

theorem tells_of_framed (framed : framed form bytes = .ok payload rest) :
    ∃ spelled, form.Tells spelled payload.length ∧ bytes = spelled ++ (payload ++ rest) := by
  obtain ⟨length, middle, told, taken⟩ := Program.bind_eq_ok framed
  obtain ⟨spelled, rfl, delimits⟩ := form.read_delimited.delimits told
  obtain ⟨rfl, rfl⟩ := bytes_eq_ok taken
  exact ⟨spelled, delimits.front, rfl⟩

end Read

def SetLayout.lengthForm? : SetLayout → Option LengthForm
  | .fixed _ => none
  | .shortFrame => some .byte
  | .longFrame => some .bits16

def DataType.setLength? (type : DataType) : Option LengthForm :=
  type.setLayout?.bind SetLayout.lengthForm?

namespace Primitive

variable {type : DataType}

theorem readSet_delimited (type : DataType) : (readSet type).Delimited := by
  unfold readSet
  cases type.setLayout? with
  | none => exact .throw _
  | some layout =>
    cases layout with
    | fixed width => exact (Read.bytes_delimited width).bind fun _ => Read.ofExcept_delimited _
    | shortFrame => exact (Read.framed_delimited .byte).bind fun _ => Read.ofExcept_delimited _
    | longFrame => exact (Read.framed_delimited .bits16).bind fun _ => Read.ofExcept_delimited _

theorem readSet_of_setLength? {form : LengthForm} (framed : type.setLength? = some form) :
    readSet type = (do Read.ofExcept (decode type (← Read.framed form))) := by
  unfold DataType.setLength? at framed
  unfold readSet
  cases layout : type.setLayout? with
  | none =>
    rw [layout] at framed
    cases framed
  | some own =>
    rw [layout] at framed
    cases own with
    | fixed width => cases framed
    | shortFrame =>
      cases framed
      rfl
    | longFrame =>
      cases framed
      rfl

end Primitive

namespace Record

variable {κ Info Name : Type} [format : RecordFormat κ Info Name]

/-! ## Set-defined entries one after another -/

/-- An entry with a value is found again in front of all other bytes. -/
theorem setStep_of_clean {expected : SetEntry κ} {unread : Bytes}
    (clean : (setStep expected unread).1.value.isMarker = false) :
    ∃ rest, unread = (setStep expected unread).1.encoded ++ rest ∧
      ∀ others, setStep expected ((setStep expected unread).1.encoded ++ others) =
        ((setStep expected unread).1, some others) := by
  cases found : Primitive.readSet expected.type unread with
  | error error left =>
    unfold setStep at clean
    rw [found] at clean
    cases clean
  | ok value rest =>
    obtain ⟨taken, rfl, delimits⟩ := (Primitive.readSet_delimited expected.type).delimits found
    rw [setStep_ok (delimits.front rest)]
    exact ⟨rest, rfl, fun others => setStep_ok (delimits.front others)⟩

theorem readEach_of_clean {first later : List (SetEntry κ)} {block : Bytes}
    (clean : ∀ entry ∈ Entries.readEach setStep (first ++ later) block, entry.value.isMarker = false) :
    ∃ found rest, block = found.flatMap (·.encoded) ++ rest ∧ found.length = first.length ∧
      ∀ others, Entries.readEach setStep (first ++ later) (found.flatMap (·.encoded) ++ others) =
        found ++ Entries.readEach setStep later others := by
  induction first generalizing block with
  | nil => exact ⟨[], block, rfl, rfl, fun others => rfl⟩
  | cons expected first ih =>
    rw [List.cons_append, Entries.readEach_cons] at clean
    obtain ⟨here, behind⟩ := List.forall_mem_cons.mp clean
    obtain ⟨rest, joined, again⟩ := setStep_of_clean here
    have own := again rest
    rw [← joined] at own
    rw [own] at behind
    obtain ⟨found, left, rfl, length, others⟩ := ih behind
    refine ⟨(setStep expected block).1 :: found, left, ?_, congrArg (· + 1) length, fun more => ?_⟩
    · rw [List.flatMap_cons, List.append_assoc, ← joined]
    · rw [List.flatMap_cons, List.append_assoc, List.cons_append, Entries.readEach_cons, again]
      exact congrArg _ (others more)

theorem setStep_of_framed {expected : SetEntry κ} {form : LengthForm} {unread : Bytes}
    (framed : expected.type.setLength? = some form)
    (clean : (setStep expected unread).1.value.isMarker = false) :
    ∃ spelled payload rest value, unread = spelled ++ (payload ++ rest) ∧ form.Tells spelled payload.length ∧
      Primitive.decode expected.type payload = .ok value ∧
      (setStep expected unread).1 =
        ⟨format.nameOf expected.key, expected.type.base, .primitive value, spelled ++ payload⟩ := by
  cases found : Primitive.readSet expected.type unread with
  | error error left =>
    unfold setStep at clean
    rw [found] at clean
    cases clean
  | ok value rest =>
    have read := found
    rw [Primitive.readSet_of_setLength? framed] at read
    obtain ⟨payload, left, taken, computed⟩ := Program.bind_eq_ok read
    obtain ⟨spelled, tells, rfl⟩ := Read.tells_of_framed taken
    cases decoded : Primitive.decode expected.type payload with
    | error error =>
      rw [decoded] at computed
      cases computed
    | ok value =>
      rw [decoded] at computed
      cases computed
      refine ⟨spelled, payload, rest, value, rfl, tells, decoded, ?_⟩
      rw [← List.append_assoc] at found ⊢
      rw [setStep_ok found]

/-- An entry whose length is told but whose payload has no value is the last one. -/
theorem setStep_of_fault {expected : SetEntry κ} {form : LengthForm} {spelled payload : Bytes}
    {error : DecodeError} (framed : expected.type.setLength? = some form)
    (tells : form.Tells spelled payload.length)
    (fails : Primitive.decode expected.type payload = .error error) (rest : Bytes) :
    setStep expected (spelled ++ (payload ++ rest)) =
      (.ofFault (format.nameOf expected.key) (.ofError error) (spelled ++ (payload ++ rest)), none) := by
  unfold setStep
  rw [Primitive.readSet_of_setLength? framed, Program.bind_ok (Read.framed_of_tells tells rest), fails]
  rfl

/-! ## The set-defined entries within a record -/

-- What is read behind a condition is split off, so that it can be taken apart like any other step.
variable (κ) in
theorem readSetData_eq (flags : UInt8) :
    readSetData κ flags =
      (if flags &&& setIdFlag ≠ 0 then Varying.read15 else pure 0) >>= fun id =>
        (if flags &&& format.standardFlag ≠ 0 then Read.framed .bits15 else Read.rest) >>= fun bytes =>
          pure (UInt16.ofNat id, bytes) := by
  unfold readSetData
  by_cases zero : flags &&& setIdFlag = 0 <;> by_cases none : flags &&& format.standardFlag = 0 <;>
    simp only [zero, none, ne_eq, not_true, not_false_eq_true, if_true, if_false]

variable (κ) in
theorem readHeadBehind_eq (flags : UInt8) :
    readHeadBehind κ flags =
      Read.when (flags &&& infoFlag ≠ 0) (readInfoBlock κ) >>= fun info =>
        Read.when (flags &&& format.setDataFlag ≠ 0) (readSetData κ flags) >>= fun setBlock? =>
          (if flags &&& format.standardFlag ≠ 0 then UInt16.toNat <$> Read.uint16 else pure 0) >>= fun count =>
            pure ⟨flags &&& format.standardFlag ≠ 0, info, setBlock?, count⟩ := by
  unfold readHeadBehind
  by_cases none : flags &&& format.standardFlag = 0 <;>
    simp only [none, ne_eq, not_true, not_false_eq_true, decide_true, decide_false, Bool.false_eq_true, if_true,
      if_false]

/-- Other set-defined values, as many bytes of them, may stand in the place of those that are read. -/
theorem readSetData_around {flags : UInt8} {bytes rest block : Bytes} {setId : UInt16}
    (read : readSetData κ flags bytes = .ok (setId, block) rest) :
    ∃ lead, bytes = lead ++ (block ++ rest) ∧ ∀ other : Bytes, other.length = block.length →
      readSetData κ flags (lead ++ (other ++ rest)) = .ok (setId, other) rest := by
  rw [readSetData_eq] at read
  obtain ⟨id, middle, readId, readBytes⟩ := Program.bind_eq_ok read
  have ids : (if flags &&& setIdFlag ≠ 0 then Varying.read15 else pure 0 : Read Nat).Delimited :=
    .ite (fun _ => Varying.read15_delimited) fun _ => .pure 0
  obtain ⟨idBytes, rfl, idDelimits⟩ := ids.delimits readId
  obtain ⟨found, left, taken, ends⟩ := Program.bind_eq_ok readBytes
  cases ends
  by_cases standard : flags &&& format.standardFlag ≠ 0
  · rw [if_pos standard] at taken
    obtain ⟨spelled, tells, rfl⟩ := Read.tells_of_framed taken
    refine ⟨idBytes ++ spelled, by rw [List.append_assoc], fun other same => ?_⟩
    rw [List.append_assoc]
    rw [readSetData_eq, Program.bind_ok (idDelimits.front _), if_pos standard,
      Program.bind_ok (Read.framed_of_tells (same ▸ tells) rest)]
    rfl
  · rw [if_neg standard] at taken
    cases taken
    refine ⟨idBytes, by rw [List.append_nil], fun other same => ?_⟩
    rw [readSetData_eq, Program.bind_ok (idDelimits.front _), if_neg standard, List.append_nil]
    rfl

theorem readHead_around {data unread block : Bytes} {head : Head Info} {setId : UInt16}
    (read : readHead κ data = .ok head unread) (setData : head.setBlock? = some (setId, block)) :
    ∃ header tail, data = header ++ (block ++ tail) ∧ ∀ other : Bytes, other.length = block.length →
      readHead κ (header ++ (other ++ tail)) = .ok { head with setBlock? := some (setId, other) } unread := by
  obtain ⟨flags, behindFlags, byte, readBehind⟩ := Program.bind_eq_ok read
  obtain ⟨first, rfl, byteDelimits⟩ := Read.byte_delimited.delimits byte
  rw [readHeadBehind_eq] at readBehind
  obtain ⟨info, behindInfo, readInfo, readRest⟩ := Program.bind_eq_ok readBehind
  have infos : (Read.when (flags &&& infoFlag ≠ 0) (readInfoBlock κ)).Delimited :=
    .when _ ((Read.framed_delimited .byte).bind fun _ => Read.ofExcept_delimited _)
  obtain ⟨infoBytes, rfl, infoDelimits⟩ := infos.delimits readInfo
  obtain ⟨setBlock?, behindSet, readSet, readCount⟩ := Program.bind_eq_ok readRest
  obtain ⟨count, left, counted, ends⟩ := Program.bind_eq_ok readCount
  cases ends
  cases setData
  by_cases present : flags &&& format.setDataFlag ≠ 0
  · have told : decide (flags &&& format.setDataFlag ≠ 0) = true := decide_eq_true present
    rw [told] at readSet
    obtain ⟨block', found, same⟩ := Program.map_eq_ok readSet
    cases same
    obtain ⟨lead, rfl, others⟩ := readSetData_around found
    refine ⟨first ++ (infoBytes ++ lead), behindSet, by simp only [List.append_assoc], fun other same => ?_⟩
    rw [List.append_assoc, List.append_assoc]
    unfold readHead
    rw [Program.bind_ok (byteDelimits.front _), readHeadBehind_eq, Program.bind_ok (infoDelimits.front _), told,
      Program.bind_ok (Read.when_true (others other same)), Program.bind_ok counted]
    rfl
  · rw [decide_eq_false present] at readSet
    cases readSet

/-- Other set-defined values are read by the same definition, and the standard entries stay as they are. -/
theorem decode_around {context : Context} {data : Bytes} {content : Content Info Name} {setId : UInt16}
    {definition : SetDefinition κ} (decoded : decode κ context data = .ok content)
    (setData : content.setId = some setId) (known : format.findSet context setId = some definition) :
    ∃ header block tail standard, data = header ++ (block ++ tail) ∧
      content.entries = Entries.readEach setStep definition.entries.toList block ++ standard ∧
      ∀ other : Bytes, other.length = block.length → decode κ context (header ++ (other ++ tail)) =
        .ok { content with entries := Entries.readEach setStep definition.entries.toList other ++ standard } := by
  cases data with
  | nil =>
    cases decoded
    cases setData
  | cons first bytes =>
    cases read : readHead κ (first :: bytes) with
    | error error left =>
      rw [decode_eq] at decoded
      unfold opening at decoded
      rw [read] at decoded
      cases decoded
    | ok head unread =>
      rw [decode_of_head read] at decoded
      cases decoded
      obtain ⟨⟨own, block⟩, setBlock, rfl⟩ := Option.map_eq_some_iff.mp setData
      obtain ⟨header, tail, joined, others⟩ := readHead_around read setBlock
      have entries (bytes : Bytes) : Head.setEntries κ context { head with setBlock? := some (own, bytes) } =
          Entries.readEach setStep definition.entries.toList bytes := by
        change Record.setBlock κ context own bytes = _
        unfold Record.setBlock
        rw [known]
      refine ⟨header, block, tail, Entries.read (step κ context) head.count unread, joined, ?_, fun other same => ?_⟩
      · rw [← entries, ← setBlock]
        rfl
      · rw [decode_of_head (others other same), ← entries]
        unfold Head.content
        rw [setBlock]
        rfl

/-! ## A payload replaced -/

/-- The bytes around the payload of a set-defined entry: those before the set-defined entries, the set-defined
entries before the payload, its length, the set-defined values behind it, and what follows them. -/
structure PayloadPlace where
  header : Bytes
  before : Bytes
  length : Bytes
  behind : Bytes
  tail : Bytes

namespace PayloadPlace

def setData (place : PayloadPlace) (payload : Bytes) : Bytes :=
  place.before ++ (place.length ++ (payload ++ place.behind))

def data (place : PayloadPlace) (payload : Bytes) : Bytes :=
  place.header ++ (place.setData payload ++ place.tail)

variable (κ) in
/-- A place with a payload in it is that of the entry at a position among the set-defined entries of a record:
whatever stands instead of the set-defined values is read by their definition, the entries before stand in front
of the payload, and the entry is its length and the payload, from which the value is read. -/
structure IsAt (context : Context) (content : Content Info Name) (definition : SetDefinition κ) (index : Nat)
    (expected : SetEntry κ) (form : LengthForm) (place : PayloadPlace) (payload : Bytes) : Prop where
  others : ∀ other : Bytes, other.length = (place.setData payload).length →
    decode κ context (place.header ++ (other ++ place.tail)) =
      .ok { content with
        entries := Entries.readEach setStep definition.entries.toList other ++ content.entries.drop definition.size }
  before : place.before = (content.entries.take index).flatMap (·.encoded)
  length : form.Tells place.length payload.length
  entry : ∃ value, Primitive.decode expected.type payload = .ok value ∧
    content.entries[index]? =
      some ⟨format.nameOf expected.key, expected.type.base, .primitive value, place.length ++ payload⟩

end PayloadPlace

theorem elsewhere_same_iff {ε : Type} {entries : List ε} {index size : Nat} (inside : index < size)
    (all : size ≤ entries.length) (marker : ε) :
    (∀ position, position ≠ index →
      (entries.take index ++ marker :: entries.drop size)[position]? = entries[position]?) ↔
        index + 1 = size := by
  have length : (entries.take index).length = index := List.length_take_of_le (by omega)
  constructor
  · intro same
    rcases Nat.lt_or_eq_of_le (Nat.succ_le_of_lt inside) with more | single
    · -- The marker stands for more than one entry, so there is no last entry any more.
      have last := same (entries.length - 1) (by omega)
      rw [List.getElem?_eq_none (by simp; omega), List.getElem?_eq_getElem (by omega)] at last
      cases last
    · exact single
  · rintro rfl position other
    by_cases earlier : position < index
    · rw [List.getElem?_append_left (by omega), List.getElem?_take_of_lt earlier]
    · obtain ⟨more, rfl⟩ := Nat.exists_eq_add_of_lt (show index < position by omega)
      rw [List.getElem?_append_right (by omega), length, show index + more + 1 - index = more + 1 by omega,
        List.getElem?_cons_succ, List.getElem?_drop]
      exact congrArg (entries[·]?) (by omega)

/-- Of a record whose entries all have values, let the payload of a set-defined entry with a length of its own
be replaced by as many bytes that have no value. Then the marker of the fault is the last set-defined entry, with
all bytes from the entry on; the entries before it and the standard entries are the same as they were. So all
other entries are the same exactly if the entry was the last one of the set definition. -/
theorem decode_replaced {context : Context} {data : Bytes} {content : Content Info Name} {setId : UInt16}
    {definition : SetDefinition κ} {index : Nat} {expected : SetEntry κ} {form : LengthForm}
    (decoded : decode κ context data = .ok content) (setData : content.setId = some setId)
    (known : format.findSet context setId = some definition)
    (clean : ∀ entry ∈ content.entries, entry.value.isMarker = false)
    (expects : definition.entries[index]? = some expected) (framed : expected.type.setLength? = some form) :
    ∃ (place : PayloadPlace) (payload : Bytes),
      data = place.data payload ∧ place.IsAt κ context content definition index expected form payload ∧
      ∀ (other : Bytes) (error : DecodeError), other.length = payload.length →
        Primitive.decode expected.type other = .error error →
          ∃ entries, decode κ context (place.data other) = .ok { content with entries } ∧
            entries = content.entries.take index ++
              .ofFault (format.nameOf expected.key) (.ofError error) (place.length ++ (other ++ place.behind)) ::
                content.entries.drop definition.size ∧
            ((∀ position, position ≠ index → entries[position]? = content.entries[position]?) ↔
              index + 1 = definition.size) := by
  obtain ⟨header, block, tail, standard, rfl, joined, others⟩ := decode_around decoded setData known
  obtain ⟨inside, cell⟩ := Array.getElem?_eq_some_iff.mp expects
  have split : definition.entries.toList =
      definition.entries.toList.take index ++ expected :: definition.entries.toList.drop (index + 1) := by
    rw [← cell, ← Array.getElem_toList, List.getElem_cons_drop, List.take_append_drop]
  have setClean : ∀ entry ∈ Entries.readEach setStep definition.entries.toList block,
      entry.value.isMarker = false := fun entry member => clean entry (joined ▸ List.mem_append_left _ member)
  -- All set-defined entries have values, so there are as many of them as the definition has.
  have count : (Entries.readEach (setStep (κ := κ)) definition.entries.toList block).length = definition.size := by
    rw [← List.append_nil definition.entries.toList] at setClean ⊢
    obtain ⟨all, rest, rfl, length, again⟩ := readEach_of_clean setClean
    rw [again, Entries.readEach_nil, List.append_nil, length]
    exact Array.length_toList
  rw [split] at setClean
  obtain ⟨found, unread, rfl, length, again⟩ := readEach_of_clean setClean
  rw [again, Entries.readEach_cons] at setClean
  obtain ⟨spelled, payload, behind, value, rfl, tells, decodes, entry⟩ :=
    setStep_of_framed framed (setClean _ (List.mem_append_right _ List.mem_cons_self))
  rw [List.length_take_of_le (by rw [Array.length_toList]; exact Nat.le_of_lt inside)] at length
  have rest : content.entries.drop definition.size = standard := by
    rw [joined, List.drop_append_of_le_length (Nat.le_of_eq count.symm), ← count, List.drop_length, List.nil_append]
  have front : content.entries.take index = found := by
    rw [joined, split, again, List.append_assoc, ← length, List.take_left]
  have all : definition.size ≤ content.entries.length := by
    rw [joined, List.length_append, count]
    exact Nat.le_add_right _ _
  rw [rest, front]
  refine ⟨⟨header, found.flatMap (·.encoded), spelled, behind, tail⟩, payload, rfl, ?_,
    fun other error same fails => ?_⟩
  · refine ⟨fun other same => ?_, by rw [front], tells, value, decodes, ?_⟩
    · rw [rest]
      exact others other same
    · rw [joined, split, again, List.append_assoc, ← length, List.getElem?_append_right (Nat.le_refl _),
        Nat.sub_self, Entries.readEach_cons, entry]
      rfl
  · have tells' : form.Tells spelled other.length := same.symm ▸ tells
    have length : (found.flatMap (·.encoded) ++ (spelled ++ (other ++ behind))).length =
        (found.flatMap (·.encoded) ++ (spelled ++ (payload ++ behind))).length := by
      simp only [List.length_append, same]
    refine ⟨_, (others _ length).trans ?_, rfl, ?_⟩
    · rw [split, again, Entries.readEach_cons, setStep_of_fault framed tells' fails, List.append_assoc]
      rfl
    · rw [← rest, ← front]
      exact elsewhere_same_iff inside all _

/-- Of three set-defined entries the second one is replaced by a number too large for an enumerated value. -/
theorem decode_replaced_enum :
    let definition : SetDefinition Int16 := ⟨0, #[⟨1, .int⟩, ⟨2, .enum⟩, ⟨3, .int⟩]⟩
    let context : Context := { localFieldSets := some ⟨[definition]⟩ }
    let first : FieldList.Entry := ⟨1, .int, .primitive (.int 7), [1, 7]⟩
    ∃ (place : PayloadPlace) (payload : Bytes),
      [0x02, 1, 7, 3, 0, 0, 5, 1, 9] = place.data payload ∧ payload = [0, 0, 5] ∧
        ∃ raw, FieldList.decode context (place.data [1, 0, 0]) =
          .ok ⟨none, some 0, 0, [first, .ofFault 2 .incompleteData raw]⟩ := by
  intro definition context first
  let second : FieldList.Entry := ⟨2, .enum, .primitive (.enum 5), [3, 0, 0, 5]⟩
  let third : FieldList.Entry := ⟨3, .int, .primitive (.int 9), [1, 9]⟩
  have decoded : decode Int16 context [0x02, 1, 7, 3, 0, 0, 5, 1, 9] = .ok ⟨none, some 0, 0, [first, second, third]⟩ :=
    rfl
  have clean : ∀ entry ∈ [first, second, third], entry.value.isMarker = false := by decide
  have known : context.fieldSet? 0 = some definition := rfl
  have expects : definition.entries[1]? = some ⟨2, .enum⟩ := rfl
  obtain ⟨⟨header, before, length, behind, tail⟩, payload, joined, isAt, replaced⟩ :=
    decode_replaced decoded rfl known clean expects rfl
  obtain ⟨value, -, entry⟩ := isAt.entry
  have spelled : [3, 0, 0, 5] = length ++ payload := congrArg Entry.encoded (Option.some.inj entry)
  -- The length of an enumerated value as small as this one is a single byte.
  obtain rfl : [0, 0, 5] = payload := by
    have tells := isAt.length []
    match length with
    | [] => cases tells
    | [single] => exact (List.cons.inj spelled).2
    | first :: second :: more =>
      cases (List.cons.inj spelled).1
      exact nomatch (EStateM.Result.ok.inj tells).2
  obtain ⟨entries, decoded, rfl, -⟩ := replaced [1, 0, 0] _ rfl rfl
  exact ⟨_, _, joined, rfl, _, decoded⟩

/-- A fault is not always contained: the entry behind an enumerated value that is too large is not found any
more. -/
theorem fault_hides_later_entry :
    let definition : SetDefinition Int16 := ⟨0, #[⟨1, .enum⟩, ⟨2, .int⟩]⟩
    let context : Context := { localFieldSets := some ⟨[definition]⟩ }
    ∃ content changed : FieldList.Content,
      FieldList.decode context [0x02, 3, 0, 0, 5, 1, 7] = .ok content ∧
      (∀ entry ∈ content.entries, entry.value.isMarker = false) ∧
      Primitive.decode .enum [1, 0, 0] = .error (.incompleteData 3) ∧
      FieldList.decode context [0x02, 3, 1, 0, 0, 1, 7] = .ok changed ∧
      content.entries[1]? = some ⟨2, .int, .primitive (.int 7), [1, 7]⟩ ∧ changed.entries[1]? = none :=
  ⟨_, _, rfl, by decide, rfl, rfl, rfl, rfl⟩

end Record

end MarketWire
