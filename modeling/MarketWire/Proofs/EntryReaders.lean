import MarketWire.Container.ElementList
import MarketWire.Container.FieldList
import MarketWire.Container.FilterList
import MarketWire.Container.ItemArray
import MarketWire.Container.Series
import MarketWire.Container.Vector
import MarketWire.Proofs.CutEntries

/-! The readers of containers, part by part.

The header of a container tells where it ends, and so does each entry. Here the reading of containers of
all kinds is split into that of the header and that of single entries.
-/

set_option autoImplicit false

namespace MarketWire

open Read (Delimited)
open Entries (Steps)

/-! ## Records -/

namespace Record

structure Head (Info : Type) where
  standard : Bool
  info : Option Info
  setBlock? : Option (UInt16 × Bytes)
  count : Nat

section
variable (κ : Type) {Info Name : Type} [format : RecordFormat κ Info Name]

def readSetData (flags : UInt8) : Read (UInt16 × Bytes) := do
  let id ← if flags &&& setIdFlag ≠ 0 then Varying.read15 else pure 0
  let bytes ← if flags &&& format.standardFlag ≠ 0 then Read.framed .bits15 else Read.rest
  return (UInt16.ofNat id, bytes)

def readHeadBehind (flags : UInt8) : Read (Head Info) := do
  let standard : Bool := flags &&& format.standardFlag ≠ 0
  let info ← Read.when (flags &&& infoFlag ≠ 0) (readInfoBlock κ)
  let setBlock? ← Read.when (flags &&& format.setDataFlag ≠ 0) (readSetData κ flags)
  let count ← if standard then UInt16.toNat <$> Read.uint16 else pure 0
  return ⟨standard, info, setBlock?, count⟩

def readHead : Read (Head Info) := do readHeadBehind κ (← Read.byte)

def Head.setEntries (context : Context) (head : Head Info) : List (Entry Name) :=
  match head.setBlock? with
  | some (id, bytes) => setBlock κ context id bytes
  | none => []

def Head.content (context : Context) (head : Head Info) (found : List (Entry Name)) : Content Info Name :=
  ⟨head.info, head.setBlock?.map Prod.fst, head.count, head.setEntries κ context ++ found⟩

def readEntry (context : Context) : Read (Entry Name) :=
  (fun (name, code, payload) => standardEntry κ context name code payload) <$> readFramed κ

variable {κ}

theorem readContent_eq (context : Context) :
    readContent κ context = do
      let head ← readHead κ
      let unread ← Read.rest
      return head.content κ context (Entries.read (step κ context) head.count unread) := by
  unfold readContent readHead readHeadBehind
  rw [bind_assoc]
  refine congrArg (Read.byte >>= ·) (funext fun flags => ?_)
  by_cases none : flags &&& format.standardFlag = 0 <;> by_cases zero : flags &&& setIdFlag = 0 <;>
    simp only [readSetData, none, zero, ne_eq, not_true, not_false_eq_true, decide_true, decide_false, if_true,
      if_false, Bool.false_eq_true, bind_assoc, pure_bind, map_eq_pure_bind] <;> rfl

variable (κ) in
/-- Read what stands before the standard entries of a record, and what is left for these; no bytes are a record
without anything in it. -/
def opening (bytes : Bytes) : Except DecodeError (Head Info × Bytes) :=
  if bytes.isEmpty then .ok (⟨false, none, none, 0⟩, [])
  else match readHead κ bytes with
    | .ok head unread => .ok (head, unread)
    | .error error _ => .error error

theorem opening_of_head {bytes rest : Bytes} {head : Head Info} (read : readHead κ bytes = .ok head rest) :
    opening κ bytes = .ok (head, rest) := by
  cases bytes with
  | nil => cases read
  | cons first bytes =>
    unfold opening
    rw [read]
    rfl

/-- What stands before the standard entries does not depend on the context. -/
theorem decode_eq (context : Context) (bytes : Bytes) :
    decode κ context bytes = (opening κ bytes).map fun (head, unread) =>
      head.content κ context (Entries.read (step κ context) head.count unread) := by
  cases bytes with
  | nil => rfl
  | cons first bytes =>
    change Read.all (readContent κ context) (first :: bytes) = _
    unfold opening Read.all EStateM.run
    rw [readContent_eq]
    cases read : readHead κ (first :: bytes) with
    | ok head unread =>
      rw [Program.bind_ok read]
      rfl
    | error error left =>
      rw [Program.bind_error read]
      rfl

theorem decode_of_head {context : Context} {bytes rest : Bytes} {head : Head Info}
    (read : readHead κ bytes = .ok head rest) :
    decode κ context bytes = .ok (head.content κ context (Entries.read (step κ context) head.count rest)) := by
  rw [decode_eq, opening_of_head read]
  rfl

theorem readSetData_delimited {flags : UInt8} (standard : flags &&& format.standardFlag ≠ 0) :
    (readSetData κ flags).Delimited := by
  unfold readSetData
  simp only [standard, ne_eq, not_false_eq_true, if_true]
  refine .ite (fun _ => ?_) fun _ => ?_
  · exact Varying.read15_delimited.bind fun _ => (Read.framed_delimited .bits15).bind fun _ => .pure _
  · exact (Delimited.pure 0).bind fun _ => (Read.framed_delimited .bits15).bind fun _ => .pure _

theorem readHeadBehind_delimited {flags : UInt8} (standard : flags &&& format.standardFlag ≠ 0) :
    (readHeadBehind κ flags).Delimited := by
  have block : (readInfoBlock κ).Delimited :=
    (Read.framed_delimited .byte).bind fun _ => Read.ofExcept_delimited _
  unfold readHeadBehind
  simp only [standard, ne_eq, not_false_eq_true, decide_true, if_true]
  exact (Delimited.when _ block).bind fun _ => (Delimited.when _ (readSetData_delimited standard)).bind fun _ =>
    (Read.uint16_delimited.map _).bind fun _ => .pure _

theorem standard_of_readHeadBehind {flags : UInt8} {bytes rest : Bytes} {head : Head Info}
    (read : readHeadBehind κ flags bytes = .ok head rest) :
    head.standard = decide (flags &&& format.standardFlag ≠ 0) := by
  obtain ⟨_, _, -, afterInfo⟩ := Program.bind_eq_ok read
  obtain ⟨_, _, -, afterSet⟩ := Program.bind_eq_ok afterInfo
  by_cases standard : decide (flags &&& format.standardFlag ≠ 0) = true
  · rw [if_pos standard] at afterSet
    obtain ⟨_, _, -, ends⟩ := Program.bind_eq_ok afterSet
    cases ends
    rfl
  · rw [if_neg standard] at afterSet
    cases afterSet
    rfl

theorem readHead_delimits {bytes rest : Bytes} {head : Head Info} (read : readHead κ bytes = .ok head rest)
    (standard : head.standard) : ∃ header, bytes = header ++ rest ∧ (readHead κ).Delimits head header := by
  obtain ⟨flags, middle, first, second⟩ := Program.bind_eq_ok read
  have told : flags &&& format.standardFlag ≠ 0 :=
    of_decide_eq_true ((standard_of_readHeadBehind second).symm.trans standard)
  obtain ⟨byte, rfl, byteDelimits⟩ := Read.byte_delimited.delimits first
  obtain ⟨others, rfl, delimits⟩ := (readHeadBehind_delimited told).delimits second
  exact ⟨byte ++ others, (List.append_assoc ..).symm, byteDelimits.bind delimits⟩

theorem readFramed_delimited (names : format.readName.Delimited) : (readFramed κ).Delimited := by
  refine names.bind fun _ => (Delimited.when _ Read.byte_delimited).bind fun _ => .ite (fun _ => ?_) fun _ => ?_
  · exact (Delimited.pure []).bind fun _ => .pure _
  · exact (Read.framed_delimited .bits16).bind fun _ => .pure _

theorem steps (names : format.readName.Delimited) (context : Context) :
    Steps (step κ context) (readEntry κ context) (fun _ => false) fun raw entry =>
      entry.value = .ofFault .iteratorOverrun raw where
  delimited := (readFramed_delimited names).map _
  reads := by
    intro bytes entry rest read
    obtain ⟨_, framed, rfl⟩ := Program.map_eq_ok read
    unfold step
    rw [framed]
    rfl
  overruns := by
    intro bytes overruns
    obtain ⟨needed, available, left, failed⟩ := overruns.of_map
    refine ⟨.ofFault format.noName .iteratorOverrun bytes, ?_, rfl⟩
    unfold step
    rw [failed]

end

end Record

/-! ## Series, vectors and filter lists -/

namespace Series

def readEntry (rowType : DataType) : Read EntryValue :=
  if rowType = .noData then pure (.container rowType [])
  else EntryValue.container rowType <$> Read.framed .bits16

theorem steps (rowType : DataType) :
    Steps (step rowType) (readEntry rowType) (fun _ => false) fun raw entry =>
      entry = .ofFault .iteratorOverrun raw := by
  unfold step readEntry
  by_cases blank : rowType = .noData
  · simp only [blank, if_true]
    refine ⟨.pure _, ?_, ?_⟩
    · rintro bytes _ _ ⟨⟩
      rfl
    · rintro bytes ⟨_, _, _, failed⟩
      cases failed
  · simp only [blank, if_false]
    refine ⟨(Read.framed_delimited .bits16).map _, ?_, ?_⟩
    · intro bytes entry rest read
      obtain ⟨payload, framed, rfl⟩ := Program.map_eq_ok read
      rw [framed]
      rfl
    · intro bytes overruns
      obtain ⟨needed, available, left, failed⟩ := overruns.of_map
      refine ⟨_, ?_, rfl⟩
      rw [failed]

theorem decode_of_head {bytes rest : Bytes} {header : Table.Header}
    (read : Table.Header.read bytes = .ok header rest) :
    decode bytes = .ok ⟨header, Entries.read (step header.rowType) header.count rest⟩ :=
  Read.all_ok (Program.bind_ok read)

end Series

namespace Vector

def readEntry (rowType : DataType) : Read Entry := do
  let (first, index) ← readIndex
  match Action.ofCode? (first &&& actionMask) with
  | none => throw (.invalidData "unknown action")
  | some action =>
    (fun (permission, payload) => ⟨index, some action, permission, .container rowType payload⟩) <$>
      readPayload rowType first action

theorem readPayload_delimited (rowType : DataType) (first : UInt8) (action : Action) :
    (readPayload rowType first action).Delimited := by
  refine (Delimited.when _ (Read.framed_delimited .bits15)).bind fun _ => .ite (fun _ => ?_) fun _ => ?_
  · exact (Read.framed_delimited .bits16).bind fun _ => .pure _
  · exact (Delimited.pure []).bind fun _ => .pure _

theorem readIndex_delimited : readIndex.Delimited :=
  Read.byte_delimited.bind fun _ => Varying.read30_delimited.bind fun _ => .pure _

theorem readEntry_delimited (rowType : DataType) : (readEntry rowType).Delimited := by
  refine readIndex_delimited.bind fun (first, index) => ?_
  dsimp only
  cases Action.ofCode? (first &&& actionMask) with
  | none => exact .throw _
  | some action => exact (readPayload_delimited rowType first action).map _

theorem steps (rowType : DataType) :
    Steps (step rowType) (readEntry rowType) (fun _ => false) fun raw entry =>
      entry.value = .ofFault .iteratorOverrun raw where
  delimited := readEntry_delimited rowType
  reads := by
    intro bytes entry rest read
    obtain ⟨⟨first, index⟩, middle, label, behind⟩ := Program.bind_eq_ok read
    unfold step
    rw [label]
    dsimp only at behind ⊢
    cases known : Action.ofCode? (first &&& actionMask) with
    | none =>
      rw [known] at behind
      cases behind
    | some action =>
      rw [known] at behind
      obtain ⟨⟨permission, payload⟩, found, rfl⟩ := Program.map_eq_ok behind
      dsimp only
      rw [found]
      rfl
  overruns := by
    intro bytes overruns
    unfold step
    rcases overruns.of_bind with ⟨_, _, _, failed⟩ | ⟨⟨first, index⟩, middle, label, behind⟩
    · rw [failed]
      exact ⟨_, rfl, rfl⟩
    · rw [label]
      dsimp only at behind ⊢
      cases known : Action.ofCode? (first &&& actionMask) with
      | none =>
        rw [known] at behind
        obtain ⟨_, _, _, failed⟩ := behind
        cases failed
      | some action =>
        rw [known] at behind
        obtain ⟨_, _, _, failed⟩ := behind.of_map
        dsimp only
        rw [failed]
        exact ⟨_, rfl, rfl⟩

theorem decode_of_head {bytes rest : Bytes} {header : Table.Header}
    (read : Table.Header.read bytes = .ok header rest) :
    decode bytes = .ok ⟨header, Entries.read (step header.rowType) header.count rest⟩ :=
  Read.all_ok (Program.bind_ok read)

end Vector

namespace FilterList

structure Head where
  type : DataType
  countHint : Option UInt8
  count : Nat

def readHead : Read Head := do
  let flags ← Read.byte
  let type ← Read.containerType
  let countHint ← Read.when (flags &&& TableFlag.countHint ≠ 0) Read.byte
  let count ← Read.byte
  return ⟨type, countHint, count.toNat⟩

def readEntry (listType : DataType) : Read Entry := do
  let (first, id, type, permission) ← readLabel
  match Action.ofCode? (first &&& actionMask) with
  | none => throw (.invalidData "unknown action")
  | some action =>
    let type := type.getD listType
    (fun payload => ⟨id, some action, type, permission, .container type payload⟩) <$>
      if hasPayload action type then Read.framed .bits16 else pure []

theorem readHead_delimited : readHead.Delimited :=
  Read.byte_delimited.bind fun _ => Read.containerType_delimited.bind fun _ =>
    (Delimited.when _ Read.byte_delimited).bind fun _ => Read.byte_delimited.bind fun _ => .pure _

theorem readLabel_delimited : readLabel.Delimited :=
  Read.byte_delimited.bind fun _ => Read.byte_delimited.bind fun _ =>
    (Delimited.when _ Read.containerType_delimited).bind fun _ =>
      (Delimited.when _ (Read.framed_delimited .bits15)).bind fun _ => .pure _

theorem readEntry_delimited (listType : DataType) : (readEntry listType).Delimited := by
  refine readLabel_delimited.bind fun (first, id, type, permission) => ?_
  dsimp only
  cases Action.ofCode? (first &&& actionMask) with
  | none => exact .throw _
  | some action =>
    exact Delimited.map (.ite (fun _ => Read.framed_delimited .bits16) fun _ => .pure []) _

theorem steps (listType : DataType) :
    Steps (step listType) (readEntry listType) (fun _ => false) fun raw entry =>
      entry.value = .ofFault .iteratorOverrun raw where
  delimited := readEntry_delimited listType
  reads := by
    intro bytes entry rest read
    obtain ⟨⟨first, id, type, permission⟩, middle, label, behind⟩ := Program.bind_eq_ok read
    unfold step
    rw [label]
    dsimp only at behind ⊢
    cases known : Action.ofCode? (first &&& actionMask) with
    | none =>
      rw [known] at behind
      cases behind
    | some action =>
      rw [known] at behind
      obtain ⟨payload, found, rfl⟩ := Program.map_eq_ok behind
      dsimp only
      by_cases filled : hasPayload action (type.getD listType) = true
      · rw [if_pos filled] at found ⊢
        rw [found]
        rfl
      · rw [if_neg filled] at found ⊢
        cases found
        rfl
  overruns := by
    intro bytes overruns
    unfold step
    rcases overruns.of_bind with ⟨_, _, _, failed⟩ | ⟨⟨first, id, type, permission⟩, middle, label, behind⟩
    · rw [failed]
      exact ⟨_, rfl, rfl⟩
    · rw [label]
      dsimp only at behind ⊢
      cases known : Action.ofCode? (first &&& actionMask) with
      | none =>
        rw [known] at behind
        obtain ⟨_, _, _, failed⟩ := behind
        cases failed
      | some action =>
        rw [known] at behind
        obtain ⟨_, _, _, failed⟩ := behind.of_map
        dsimp only
        by_cases filled : hasPayload action (type.getD listType) = true
        · rw [if_pos filled] at failed ⊢
          rw [failed]
          exact ⟨_, rfl, rfl⟩
        · rw [if_neg filled] at failed
          cases failed

theorem decode_of_head {bytes rest : Bytes} {head : Head} (found : readHead bytes = .ok head rest) :
    decode bytes =
      .ok ⟨head.type, head.countHint, head.count, Entries.read (step head.type) head.count rest⟩ := by
  have eq : read = do
      let head ← readHead
      let unread ← Read.rest
      return ⟨head.type, head.countHint, head.count, Entries.read (step head.type) head.count unread⟩ := by
    unfold read readHead
    simp only [bind_assoc, pure_bind]
  refine @Read.all_ok _ _ _ [] _ ?_
  rw [eq, Program.bind_ok found]
  rfl

end FilterList

/-! ## Arrays -/

namespace ItemArray

structure Head where
  type : DataType
  itemLength : Nat
  count : Nat

def readFilledHead : Read Head := do
  let code ← Read.byte
  match (DataType.ofCode? code).filter fun type => type.isPrimitive && type ≠ .array with
  | none => throw (.unsupportedType code)
  | some type =>
    let length ← Varying.read16
    let count ← Read.uint16
    return ⟨type, length, count.toNat⟩

def readHead : Read Head := fun unread =>
  if unread.isEmpty then .ok ⟨.unknown, 0, 0⟩ unread else readFilledHead unread

def Head.content (head : Head) (found : List (Except DecodeError Primitive)) : Content :=
  ⟨head.type, head.itemLength, head.count, found⟩

def readEntry (type : DataType) (length : Nat) : Read (Except DecodeError Primitive) :=
  if length = 0 then
    match type.setLayout? with
    | none => throw (.unsupportedType type.code)
    | some (.fixed width) => Primitive.decodeFixed type <$> Read.bytes width
    | some .shortFrame => Primitive.decode type <$> Read.framed .byte
    | some .longFrame => Primitive.decode type <$> Read.framed .bits16
  else decodeFixed type <$> Read.bytes length

theorem readFilledHead_delimited : readFilledHead.Delimited := by
  refine Read.byte_delimited.bind fun code => ?_
  cases (DataType.ofCode? code).filter fun type => type.isPrimitive && type ≠ .array with
  | none => exact .throw _
  | some type => exact Varying.read16_delimited.bind fun _ => Read.uint16_delimited.bind fun _ => .pure _

theorem readHead_take {bytes rest : Bytes} {head : Head} (read : readHead bytes = .ok head rest) :
    ∃ header, bytes = header ++ rest ∧ ∀ k, header.length ≤ k →
      readHead (bytes.take k) = .ok head (rest.take (k - header.length)) := by
  cases bytes with
  | nil =>
    cases read
    refine ⟨[], rfl, fun k _ => ?_⟩
    rw [List.take_nil, List.take_nil]
    rfl
  | cons first bytes =>
    have filled : readFilledHead (first :: bytes) = .ok head rest := read
    obtain ⟨header, joined, delimits⟩ := readFilledHead_delimited.delimits filled
    refine ⟨header, joined, fun k inside => ?_⟩
    have found := delimits.take joined k inside
    cases cut : (first :: bytes).take k with
    | nil =>
      rw [cut] at found
      cases found
    | cons again others =>
      rw [cut] at found
      exact found

theorem steps_of {type : DataType} {length : Nat} {reader : Read Bytes}
    {compute : Bytes → Except DecodeError Primitive} (delimited : reader.Delimited)
    (eq : readItem type length = do Read.ofExcept (compute (← reader))) :
    Steps (step type length) (compute <$> reader) (fun item => !item.isOk) fun _ item =>
      ∃ needed available, item = .error (.overrun needed available) where
  delimited := delimited.map compute
  reads := by
    intro bytes item rest read
    obtain ⟨payload, taken, rfl⟩ := Program.map_eq_ok read
    unfold step
    rw [eq, Program.bind_ok taken]
    cases compute payload <;> rfl
  overruns := by
    intro bytes overruns
    obtain ⟨needed, available, left, failed⟩ := overruns.of_map
    refine ⟨_, ?_, needed, available, rfl⟩
    unfold step
    rw [eq, Program.bind_error failed]

theorem steps (type : DataType) (length : Nat) :
    Steps (step type length) (readEntry type length) (fun item => !item.isOk) fun _ item =>
      ∃ needed available, item = .error (.overrun needed available) := by
  unfold readEntry
  by_cases free : length = 0
  · subst free
    rw [if_pos rfl]
    have eq : readItem type 0 = Primitive.readSet type := rfl
    unfold Primitive.readSet at eq
    cases layout : type.setLayout? with
    | none =>
      rw [layout] at eq
      refine ⟨.throw _, nofun, ?_⟩
      rintro bytes ⟨_, _, _, failed⟩
      cases failed
    | some form =>
      rw [layout] at eq
      cases form with
      | fixed width => exact steps_of (Read.bytes_delimited width) eq
      | shortFrame => exact steps_of (Read.framed_delimited .byte) eq
      | longFrame => exact steps_of (Read.framed_delimited .bits16) eq
  · rw [if_neg free]
    exact steps_of (Read.bytes_delimited length) (if_neg free)

theorem decode_of_head {bytes rest : Bytes} {head : Head} (found : readHead bytes = .ok head rest) :
    decode bytes = .ok (head.content (Entries.read (step head.type head.itemLength) head.count rest)) := by
  have eq : read = do
      let head ← readFilledHead
      let unread ← Read.rest
      return head.content (Entries.read (step head.type head.itemLength) head.count unread) := by
    unfold read readFilledHead
    rw [bind_assoc]
    refine congrArg (Read.byte >>= ·) (funext fun code => ?_)
    cases (DataType.ofCode? code).filter fun type => type.isPrimitive && type ≠ .array with
    | none => rfl
    | some type =>
      simp only [bind_assoc, pure_bind]
      rfl
  cases bytes with
  | nil =>
    cases found
    rfl
  | cons first bytes =>
    refine @Read.all_ok _ _ _ [] _ ?_
    have filled : readFilledHead (first :: bytes) = .ok head rest := found
    rw [eq, Program.bind_ok filled]
    rfl

end ItemArray

end MarketWire
