import MarketWire.Proofs.Additions
import MarketWire.Proofs.EnumParts
import MarketWire.Proofs.Tokens

/-! Files of enumerated values are read as they are written.

A table is written as the lines that refer to it and the lines of its values behind them, in any layout, with blank
lines and comments between them. Nothing marks the end of a table but the start of the next one or that of the file.
Such a file gives its tables in their order, each with its own references and values.
-/

set_option autoImplicit false

namespace MarketWire

/-! ## Displays -/

def hexDigit (upper : Bool) (n : Nat) : UInt8 :=
  .ofNat (if n < 10 then 0x30 + n else if upper then 0x37 + n else 0x57 + n)

inductive Hex : Bytes → Bytes → Prop where
  | nil : Hex [] []
  | cons (byte : UInt8) (high low : Bool) {content digits : Bytes} (rest : Hex content digits) :
      Hex (byte :: content) (hexDigit high (byte.toNat / 16) :: hexDigit low (byte.toNat % 16) :: digits)

theorem hexDigit?_hexDigit : ∀ n < 16, ∀ upper, Scan.hexDigit? (hexDigit upper n) = some (.ofNat n) := by decide

theorem hexDigit_plain : ∀ n < 16, ∀ upper, hexDigit upper n ≠ Scan.hash ∧ hexDigit upper n ≠ 0x0A := by decide

namespace Hex

variable {content digits : Bytes} (hex : Hex content digits)
include hex

theorem bytes : Scan.hexBytes? digits = some content := by
  induction hex with
  | nil => rfl
  | cons byte high low rest ih =>
    have small : byte.toNat / 16 < 16 := Nat.div_lt_of_lt_mul byte.toNat_lt
    have whole : UInt8.ofNat (byte.toNat / 16) * 16 + UInt8.ofNat (byte.toNat % 16) = byte := by
      have same := congrArg UInt8.ofNat (Nat.div_add_mod' byte.toNat 16)
      rwa [UInt8.ofNat_add, UInt8.ofNat_mul, UInt8.ofNat_toNat] at same
    rw [Scan.hexBytes?, hexDigit?_hexDigit _ small, hexDigit?_hexDigit _ (Nat.mod_lt _ (by decide)), ih]
    change some (_ :: _) = _
    rw [whole]

theorem even : digits.length % 2 = 0 := by
  induction hex with
  | nil => rfl
  | cons byte high low rest ih => exact (Nat.add_mod_right _ 2).trans ih

theorem plain : ∀ digit ∈ digits, digit ≠ Scan.hash ∧ digit ≠ 0x0A := by
  induction hex with
  | nil => exact List.forall_mem_nil _
  | cons byte high low rest ih =>
    have small : byte.toNat / 16 < 16 := Nat.div_lt_of_lt_mul byte.toNat_lt
    exact List.forall_mem_cons.mpr ⟨hexDigit_plain _ small high,
      List.forall_mem_cons.mpr ⟨hexDigit_plain _ (Nat.mod_lt _ (by decide)) low, ih⟩⟩

theorem single : Scan.hash ∉ digits := fun member => (hex.plain _ member).1 rfl

theorem whole : 0x0A ∉ digits := fun member => (hex.plain _ member).2 rfl

end Hex

/-- How a display stands on a line: as text between quotes or as digits between number signs. -/
inductive Displays : Bytes → Token → Prop where
  | quoted {content : Bytes} (filled : content ≠ []) (single : Scan.quote ∉ content) (whole : 0x0A ∉ content) :
      Displays content (.enclosed Scan.quote content (.inl rfl) single whole)
  | hex {content digits : Bytes} (hex : Hex content digits) :
      Displays content (.enclosed Scan.hash digits (.inr rfl) hex.single hex.whole)

theorem Lays.display {text display line : Bytes} {token : Token} {tokens : List Token}
    (displays : Displays display token) (lays : Lays text (token :: tokens) line) :
    ∃ rest, Scan.display line = .ok display rest ∧ Lays text tokens rest := by
  obtain ⟨unread, first, lays⟩ := lays.peek?
  cases displays with
  | quoted filled single whole =>
    obtain ⟨rest, run, lays⟩ := lays.delimited?
    refine ⟨rest, ?_, lays⟩
    unfold Scan.display
    rw [Program.bind_ok first, Token.bytes, List.cons_append, List.head?_cons, if_pos rfl, Program.bind_ok run,
      Option.filter_some, if_pos (by simpa using filled)]
    rfl
  | @hex digits hex =>
    obtain ⟨rest, run, lays⟩ := lays.delimited?
    refine ⟨rest, ?_, lays⟩
    unfold Scan.display
    rw [Program.bind_ok first, Token.bytes, List.cons_append, List.head?_cons, if_neg (by decide), if_pos rfl,
      Program.bind_ok run]
    have given : Scan.demand "Invalid hexadecimal input" (some digits) rest = .ok digits rest := rfl
    rw [Program.bind_ok given, if_neg (not_not.mpr hex.even), hex.bytes]
    rfl

/-! ## Records -/

/-- A reference of a field to a table. The acronym is no number, so that the line is told from that of a value. -/
structure ReferenceRecord where
  acronym : String
  fid : Int16
  acronymWord : IsWord acronym
  loud : (Bytes.ofString acronym).head? ≠ some Line.commentMark
  unquoted : (Bytes.ofString acronym).head? ≠ some Scan.quote
  named : Integer.ofBits? 64 acronym.toList = none

structure ValueRecord where
  value : UInt16
  display : Bytes
  meaning : String
  trimmed : Blank.IsTrimmed (Bytes.ofString meaning)
  whole : 0x0A ∉ Bytes.ofString meaning

inductive EnumRecord where
  | reference (told : ReferenceRecord)
  | value (told : ValueRecord)

namespace EnumRecord

def line : EnumRecord → EnumLine
  | reference told => .reference told.acronym (some told.fid)
  | value told => .value told.value ⟨told.display, told.meaning⟩

inductive Form : EnumRecord → Bytes → Prop where
  | reference {reference : ReferenceRecord} {line : Bytes}
      (lays : Lays [] [.word reference.acronym reference.acronymWord, .numeral reference.fid.toInt] line) :
      Form (.reference reference) line
  | value {value : ValueRecord} {display : Token} {line : Bytes} (displays : Displays value.display display)
      (lays : Lays (Bytes.ofString value.meaning) [.numeral value.value.toNat, display] line) :
      Form (.value value) line

theorem Form.whole {record : EnumRecord} {line : Bytes} (form : record.Form line) : 0x0A ∉ line := by
  cases form with
  | reference lays => exact lays.whole List.not_mem_nil
  | @value value display line displays lays => exact lays.whole value.whole

def IsRead (record : EnumRecord) (content : Bytes) : Prop :=
  ∃ rest, Scan.enumLine content = .ok record.line rest

end EnumRecord

namespace Lays

variable {text : Bytes} {tokens : List Token} {line : Bytes}

theorem firstWord {name : String} {isWord : IsWord name} (unquoted : (Bytes.ofString name).head? ≠ some Scan.quote)
    (lays : Lays text (.word name isWord :: tokens) line) {β : Type} {next : String → Scan β} : ∃ rest,
    Lays text tokens rest ∧ (do
      let quoted := (← Scan.peek?) = some Scan.quote
      let first ← Scan.demand "Missing keyword" ((← Scan.word?).filter fun _ => !quoted)
      next first) line = next name rest := by
  obtain ⟨unread, peeked, lays⟩ := lays.peek?
  obtain ⟨rest, taken, lays⟩ := lays.word?
  refine ⟨rest, lays, (Program.bind_ok peeked).trans ((Program.bind_ok taken).trans ?_)⟩
  rw [Option.filter_some, Token.bytes, decide_eq_false unquoted]
  rfl

end Lays

theorem ReferenceRecord.isRead (reference : ReferenceRecord) {line : Bytes}
    (lays : Lays [] [.word reference.acronym reference.acronymWord, .numeral reference.fid.toInt] line) :
    (EnumRecord.reference reference).IsRead line := by
  obtain ⟨rest, lays, run⟩ := lays.firstWord reference.unquoted
  obtain ⟨behind, taken, -⟩ := lays.word?
  refine ⟨behind, run.trans ?_⟩
  rw [reference.named]
  refine (Program.bind_ok taken).trans ?_
  rw [Option.bind_some, Scan.fid?_toString]
  rfl

theorem Scan.enumValue_toNat (value : UInt16) (line : Bytes) : enumValue (value.toNat : Int) line = .ok value line := by
  have least : ¬ (value.toNat : Int) < 0 := Int.not_lt.mpr (Int.natCast_nonneg _)
  have most : ¬ 0xFFFF < (value.toNat : Int) := by
    have small := value.toNat_lt
    omega
  unfold enumValue
  rw [if_neg least, if_neg most, Int.toNat_natCast, UInt16.ofNat_toNat]
  rfl

theorem ValueRecord.isRead (value : ValueRecord) {display : Token} {line : Bytes}
    (displays : Displays value.display display)
    (lays : Lays (Bytes.ofString value.meaning) [.numeral value.value.toNat, display] line) :
    (EnumRecord.value value).IsRead line := by
  have small := value.value.toNat_lt
  have bound : Nat.pow 2 (64 - 1) = 0x8000000000000000 := rfl
  have numeral : Integer.ofBits? 64 (toString (value.value.toNat : Int)).toList = some (value.value.toNat : Int) :=
    Integer.ofBits?_toString (by omega) (by omega)
  have unquoted : (Bytes.ofString (toString (value.value.toNat : Int))).head? ≠ some Scan.quote := fun found =>
    (Scan.mem_bytes_toString (List.mem_of_mem_head? found)).2.2 rfl
  obtain ⟨rest, lays, run⟩ := lays.firstWord unquoted
  obtain ⟨behind, shown, lays⟩ := lays.display displays
  refine ⟨[], run.trans ?_⟩
  rw [numeral]
  refine (Program.bind_ok (Scan.enumValue_toNat value.value rest)).trans (Program.bind_ok ?_)
  unfold Scan.enumLabel
  rw [Program.bind_ok shown, Program.bind_ok (lays.rest value.trimmed), Utf8.decodeLossy_ofString]
  rfl

theorem EnumRecord.Form.isRead {record : EnumRecord} {line : Bytes} (form : record.Form line) :
    ∃ content, record.IsRead content ∧ Line.words content ≠ .nothing ∧
      Line.ofBytes (Line.dropReturn line) = .words content := by
  cases form with
  | @reference reference line lays =>
    obtain ⟨content, words, lays⟩ := (lays.dropReturn .nil).ofBytes reference.loud
    exact ⟨content, reference.isRead lays, nofun, words⟩
  | @value value display line displays lays =>
    have loud : (Bytes.ofString (toString (value.value.toNat : Int))).head? ≠ some Line.commentMark := fun found =>
      (Scan.mem_bytes_toString (List.mem_of_mem_head? found)).2.1 rfl
    obtain ⟨content, words, lays⟩ := (lays.dropReturn value.trimmed).ofBytes loud
    exact ⟨content, value.isRead displays lays, nofun, words⟩

/-! ## Tables -/

/-- A table as a file gives it: fields that refer to it and values, at least one of each. -/
structure TableRecord where
  references : List ReferenceRecord
  values : List ValueRecord
  referenced : references ≠ []
  filled : values ≠ []
  distinct : (values.map (·.value)).Nodup

namespace TableRecord

variable (record : TableRecord)

def fids : List Int16 := record.references.map (·.fid)

def links : List (Int16 × String) := record.references.map fun reference => (reference.fid, reference.acronym)

def labels : List (UInt16 × EnumLabel) := record.values.map fun value => (value.value, ⟨value.display, value.meaning⟩)

def lines : List EnumRecord := record.references.map .reference ++ record.values.map .value

def table : EnumTable := ⟨record.fids, (∅ : Std.ExtTreeMap UInt16 EnumLabel).insertMany record.labels⟩

def pending : PendingTable := ⟨record.links.reverse, record.labels.reverse⟩

theorem map_fst_links : record.links.map Prod.fst = record.fids := List.map_map

theorem labels_nodup : (record.labels.map Prod.fst).Nodup := by
  unfold labels
  rw [List.map_map]
  exact record.distinct

theorem ofList : EnumTable.ofList (record.links.map Prod.fst) record.labels = .ok record.table := by
  have nonempty : record.fids.isEmpty = false := by simpa [fids] using record.referenced
  unfold EnumTable.ofList
  rw [map_fst_links, nonempty, EnumTable.addLabels_ok record.labels_nodup (by simp)]
  rfl

theorem get?_table {value : UInt16} {label : EnumLabel} :
    record.table.get? value = some label ↔ (value, label) ∈ record.labels :=
  EnumTable.getElem?_insertMany record.labels_nodup

theorem fid_mem {records : List TableRecord} {fid : Int16} {acronym : String}
    (member : (fid, acronym) ∈ records.flatMap (·.links)) : fid ∈ records.flatMap (·.fids) := by
  obtain ⟨record, inside, member⟩ := List.mem_flatMap.mp member
  rw [List.mem_flatMap]
  exact ⟨record, inside, record.map_fst_links ▸ List.mem_map.mpr ⟨_, member, rfl⟩⟩

end TableRecord

theorem TableRecord.fid_new {records : List TableRecord} {record : TableRecord}
    (distinct : ((records ++ [record]).flatMap (·.fids)).Nodup) {fid : Int16} {acronym earlier : String}
    (linked : (fid, earlier) ∈ records.flatMap (·.links)) : (fid, acronym) ∉ record.links := by
  intro member
  rw [List.flatMap_append, List.flatMap_singleton] at distinct
  have own : fid ∈ record.fids := record.map_fst_links ▸ List.mem_map_of_mem member
  exact List.disjoint_of_nodup_append distinct (fid_mem linked) own

def EnumRecord.IsGiven (record : EnumRecord) (line : Line × Nat) : Prop :=
  ∃ content, line.1 = .words content ∧ record.IsRead content

namespace Dictionary

/-! ## Adding lines -/

theorem addEnumLines_loud {σ : Type} [Store σ] (pending : PendingTable) (lines : List (Line × Nat)) :
    (addEnumLines pending (Line.loud lines) : Store.Update σ PendingTable) = addEnumLines pending lines := by
  induction lines generalizing pending with
  | nil => rfl
  | cons line rest ih =>
    obtain ⟨line, number⟩ := line
    cases line with
    | nothing => exact ih pending
    | tag name value =>
      change (do applyEnumTag number name value; addEnumLines pending (Line.loud rest) : Store.Update σ _) = _
      rw [ih, addEnumLines]
    | words content =>
      change (addEnumLines pending ((.words content, number) :: Line.loud rest) : Store.Update σ _) = _
      simp only [addEnumLines, ih]

section
variable {pending : PendingTable} {dictionary : Dictionary} {line : Line × Nat} {rest : List (Line × Nat)}

theorem addEnumLines_reference {told : ReferenceRecord} (given : (EnumRecord.reference told).IsGiven line)
    {next : PendingTable} {after : Dictionary} (closed : closeTable line.2 pending dictionary = .ok next after) :
    addEnumLines pending (line :: rest) dictionary =
      addEnumLines { next with references := (told.fid, told.acronym) :: next.references } rest after := by
  obtain ⟨words, number⟩ := line
  obtain ⟨content, rfl, left, run⟩ := given
  have read : scanLine number Scan.enumLine content dictionary =
      .ok (.reference told.acronym (some told.fid)) dictionary := by
    unfold scanLine
    rw [run]
    rfl
  rw [addEnumLines, Program.bind_ok read]
  exact Program.bind_ok closed

theorem addEnumLines_value {told : ValueRecord} (given : (EnumRecord.value told).IsGiven line) :
    addEnumLines pending (line :: rest) dictionary =
      addEnumLines { pending with values := (told.value, ⟨told.display, told.meaning⟩) :: pending.values } rest
        dictionary := by
  obtain ⟨words, number⟩ := line
  obtain ⟨content, rfl, left, run⟩ := given
  have read : scanLine number Scan.enumLine content dictionary =
      .ok (.value told.value ⟨told.display, told.meaning⟩) dictionary := by
    unfold scanLine
    rw [run]
    rfl
  rw [addEnumLines, Program.bind_ok read]

end

section
variable {others : List EnumRecord} {lines : List (Line × Nat)} {dictionary : Dictionary}

theorem addEnumLines_references {told : List ReferenceRecord}
    (given : List.Forall₂ EnumRecord.IsGiven (told.map .reference ++ others) lines)
    (references : List (Int16 × String)) : ∃ rest, List.Forall₂ EnumRecord.IsGiven others rest ∧
      addEnumLines ⟨references, []⟩ lines dictionary =
        addEnumLines ⟨(told.map fun reference => (reference.fid, reference.acronym)).reverse ++ references, []⟩ rest
          dictionary := by
  induction told generalizing lines references with
  | nil => exact ⟨lines, given, rfl⟩
  | cons first told ih =>
    cases given with
    | @cons _ line _ lines own given =>
      obtain ⟨rest, behind, same⟩ := ih given ((first.fid, first.acronym) :: references)
      refine ⟨rest, behind, ?_⟩
      rw [List.map_cons, List.reverse_cons, List.append_assoc, List.singleton_append, ← same]
      have stays : closeTable line.2 ⟨references, []⟩ dictionary = .ok ⟨references, []⟩ dictionary := rfl
      exact addEnumLines_reference own stays

theorem addEnumLines_values {told : List ValueRecord}
    (given : List.Forall₂ EnumRecord.IsGiven (told.map .value ++ others) lines)
    (references : List (Int16 × String)) (values : List (UInt16 × EnumLabel)) :
    ∃ rest, List.Forall₂ EnumRecord.IsGiven others rest ∧ addEnumLines ⟨references, values⟩ lines dictionary =
      addEnumLines ⟨references, (told.map fun value => (value.value, ⟨value.display, value.meaning⟩)).reverse ++ values⟩
        rest dictionary := by
  induction told generalizing lines values with
  | nil => exact ⟨lines, given, rfl⟩
  | cons first told ih =>
    cases given with
    | @cons _ line _ lines own given =>
      obtain ⟨rest, behind, same⟩ := ih given ((first.value, ⟨first.display, first.meaning⟩) :: values)
      refine ⟨rest, behind, ?_⟩
      rw [List.map_cons, List.reverse_cons, List.append_assoc, List.singleton_append, ← same]
      exact addEnumLines_value own

def Closes (pending : PendingTable) (dictionary after : Dictionary) : Prop :=
  ∀ line, closeTable line pending dictionary = .ok {} after

/-- The lines of a table close the one before and leave their own. -/
theorem addEnumLines_table {record : TableRecord} {pending : PendingTable} {after : Dictionary}
    (closes : Closes pending dictionary after)
    (given : List.Forall₂ EnumRecord.IsGiven (record.lines ++ others) lines) :
    ∃ rest, List.Forall₂ EnumRecord.IsGiven others rest ∧
      addEnumLines pending lines dictionary = addEnumLines record.pending rest after := by
  -- The first reference closes what is pending. Behind it there are no values yet, so the others close nothing.
  unfold TableRecord.lines TableRecord.pending TableRecord.links TableRecord.labels at *
  obtain ⟨first, more, same⟩ := List.exists_cons_of_ne_nil record.referenced
  rw [same, List.map_cons, List.cons_append, List.cons_append, List.append_assoc] at given
  cases given with
  | @cons _ line _ lines own given =>
    obtain ⟨middle, given, linked⟩ := addEnumLines_references given [(first.fid, first.acronym)]
    obtain ⟨rest, behind, labelled⟩ := addEnumLines_values given _ []
    refine ⟨rest, behind, ?_⟩
    rw [addEnumLines_reference own (closes line.2), same, List.map_cons, List.reverse_cons]
    exact linked.trans (labelled.trans (by rw [List.append_nil]))

end

/-! ## Dictionaries of tables -/

/-- A dictionary defines no field and has some tables in their order, each linked from its fields and no others. -/
structure Lists (dictionary : Dictionary) (records : List TableRecord) : Prop where
  undefined : ∀ fid, dictionary.get? fid = none
  tables : dictionary.tables.toList = records.map (·.table)
  links : ∀ {fid acronym}, (dictionary.links[fid]?).map (·.acronym) = some acronym ↔
    (fid, acronym) ∈ records.flatMap (·.links)

theorem lists_empty (keep : Bool) : (empty.withNames keep).Lists [] where
  undefined _ := Std.ExtTreeMap.getElem?_empty
  tables := rfl
  links {fid acronym} := by
    have unlinked : (empty.withNames keep).links[fid]? = none := Std.ExtTreeMap.getElem?_empty
    rw [unlinked]
    exact ⟨nofun, nofun⟩

section
variable {dictionary : Dictionary} {records : List TableRecord} {record : TableRecord}
  (lists : dictionary.Lists records) (distinct : ((records ++ [record]).flatMap (·.fids)).Nodup)
include lists distinct

theorem Lists.accepts : dictionary.Accepts record.links := by
  refine accepts_iff_definitions.mpr ⟨?_, fun reference member linked => ?_, fun reference _ field defined => ?_⟩
  · rw [List.flatMap_append, List.flatMap_singleton] at distinct
    rw [record.map_fst_links]
    exact distinct.of_append_right
  · obtain ⟨link, found⟩ := Option.isSome_iff_exists.mp (Std.ExtTreeMap.mem_iff_isSome_getElem?.mp linked)
    have earlier := lists.links.mp (congrArg (Option.map (·.acronym)) found)
    exact TableRecord.fid_new distinct earlier member
  · rw [lists.undefined] at defined
    cases defined

theorem Lists.insert : (dictionary.insertTable record.links record.table).Lists (records ++ [record]) where
  undefined := lists.undefined
  tables := by
    rw [List.map_append, ← lists.tables]
    exact Array.toList_push
  links {fid acronym} := by
    rw [List.flatMap_append, List.flatMap_singleton, List.mem_append]
    -- A field is linked by the new table or was linked before, and never both.
    rcases getElem?_link record.links dictionary.tables.size dictionary.links fid with
      ⟨absent, kept⟩ | ⟨own, member, found⟩
    · have others : (fid, acronym) ∉ record.links := fun inside => absent (List.mem_map.mpr ⟨_, inside, rfl⟩)
      change ((record.links.foldl _ dictionary.links)[fid]?).map _ = _ ↔ _
      rw [kept, lists.links]
      exact (or_iff_left others).symm
    · change ((record.links.foldl _ dictionary.links)[fid]?).map _ = _ ↔ _
      rw [found, Option.map_some, Option.some_inj]
      constructor
      · rintro rfl
        exact .inr member
      · rintro (earlier | inside)
        · exact absurd member (TableRecord.fid_new distinct earlier)
        · exact (lists.accepts distinct).acronym_eq member inside

theorem Lists.closes : Closes record.pending dictionary (dictionary.insertTable record.links record.table) := by
  intro line
  have added : addPending line record.pending dictionary =
      .ok () (dictionary.insertTable record.links record.table) := by
    refine onLine_eq_ok.mpr ?_
    rw [TableRecord.pending, List.reverse_reverse, List.reverse_reverse]
    exact addTable_ok record.ofList (lists.accepts distinct)
  have nonempty : record.pending.values.isEmpty = false := by
    simpa [TableRecord.pending, TableRecord.labels] using record.filled
  unfold closeTable
  rw [nonempty, if_neg Bool.false_ne_true, Program.bind_ok added]
  rfl

end

/-! ## Files -/

-- The table of the last lines is still pending at the end, so the invariant is about closing it.
theorem addEnumLines_tables {records rest : List TableRecord} {pending : PendingTable} {dictionary after : Dictionary}
    {lines : List (Line × Nat)} (closes : Closes pending dictionary after) (lists : after.Lists records)
    (distinct : ((records ++ rest).flatMap (·.fids)).Nodup)
    (given : List.Forall₂ EnumRecord.IsGiven (rest.flatMap (·.lines)) lines)
    (filled : pending.values ≠ [] ∨ rest ≠ []) :
    ∃ last before complete, addEnumLines pending lines dictionary = .ok last before ∧ last.values ≠ [] ∧
      Closes last before complete ∧ complete.Lists (records ++ rest) := by
  induction rest generalizing records pending dictionary after lines with
  | nil =>
    cases given
    rw [List.append_nil]
    exact ⟨pending, dictionary, after, rfl, filled.resolve_right (not_not.mpr rfl), closes, lists⟩
  | cons record rest ih =>
    rw [List.append_cons] at distinct ⊢
    have first : ((records ++ [record]).flatMap (·.fids)).Nodup := by
      rw [List.flatMap_append] at distinct
      exact distinct.of_append_left
    obtain ⟨behind, given, same⟩ := addEnumLines_table closes given
    rw [same]
    have nonempty : record.pending.values ≠ [] := by
      simpa [TableRecord.pending, TableRecord.labels] using record.filled
    exact ih (lists.closes first) (lists.insert first) distinct given (.inl nonempty)

/-- A file succeeds if the table that is pending behind its lines can be closed. -/
theorem parseEnums_closes {text : Bytes} {last : PendingTable} {dictionary before after : Dictionary}
    (run : addEnumLines {} (Line.ofText text) dictionary = .ok last before) (filled : last.values ≠ [])
    (closes : Closes last before after) : parseEnums text dictionary = .ok () after := by
  have nonempty : last.values.isEmpty = false := by simpa using filled
  have added : addPending (Line.ofText text).length last before = .ok () after := by
    have closed := closes (Line.ofText text).length
    unfold closeTable at closed
    rw [nonempty, if_neg Bool.false_ne_true] at closed
    obtain ⟨_, middle, added, ends⟩ := Program.bind_eq_ok closed
    cases ends
    exact added
  refine transaction_eq_ok.mpr ((Program.bind_ok run).trans ?_)
  rw [nonempty, if_neg Bool.false_ne_true]
  exact added

/-- A file of tables, in any layout, gives its tables in their order, with their references and values. Of each field
that refers to a table, the values of this table are found, with their labels, and no others. -/
theorem parseEnums_written {records : List TableRecord} (nonempty : records ≠ [])
    (distinct : (records.flatMap (·.fids)).Nodup) {lines : List Bytes} {text : Bytes}
    (spells : Line.Spells text lines) (tells : Line.Tells EnumRecord.Form (records.flatMap (·.lines)) lines)
    (keep : Bool) :
    ∃ loaded, parseEnums text (empty.withNames keep) = .ok () loaded ∧
      List.Forall₂ (fun record table => table.fids = record.fids ∧
        ∀ value label, table.get? value = some label ↔ (value, label) ∈ record.labels) records loaded.tables.toList ∧
      (∀ record ∈ records, ∀ reference ∈ record.references,
        loaded.acronymOf? reference.fid = some reference.acronym ∧
        ∀ value label, loaded.enumLabel? reference.fid value = some label ↔ (value, label) ∈ record.labels) ∧
      ∀ fid ∉ records.flatMap (·.fids), ∀ value, loaded.enumLabel? fid value = none := by
  obtain ⟨heard, all, same⟩ := tells.heard EnumRecord.IsRead .words EnumRecord.Form.isRead
  have given : List.Forall₂ EnumRecord.IsGiven (records.flatMap (·.lines)) (Line.loud (Line.ofText text)) := by
    have read : List.Forall₂ (fun record line => ∃ content, line = Line.words content ∧ record.IsRead content)
        (records.flatMap (·.lines)) (heard.map .words) :=
      List.forall₂_map_right_iff.mpr (all.imp fun _ content isRead => ⟨content, rfl, isRead⟩)
    rw [← same, ← Line.map_fst_loud _ 1, List.forall₂_map_right_iff] at read
    rwa [Line.ofText, Line.cut_of_spells spells (tells.whole EnumRecord.Form.whole)]
  have closes : Closes {} (empty.withNames keep) (empty.withNames keep) := fun _ => rfl
  obtain ⟨last, before, loaded, run, filled, closed, lists⟩ :=
    addEnumLines_tables closes (lists_empty keep) distinct given (.inr nonempty)
  rw [addEnumLines_loud] at run
  rw [List.nil_append] at lists
  have parsed := parseEnums_closes run filled closed
  have wellFormed := (wellFormed_invariant.updates.alike.parseEnums text).keeps.of_ok
    (wellFormed_invariant.names wellFormed_invariant.empty keep) parsed
  refine ⟨loaded, parsed, ?_, fun record member reference refers => ⟨?_, fun value label => ?_⟩,
    fun fid other value => ?_⟩
  · rw [lists.tables, List.forall₂_map_right_iff]
    exact List.forall₂_same.mpr fun record _ => ⟨rfl, fun value label => record.get?_table⟩
  · have linked : (reference.fid, reference.acronym) ∈ records.flatMap (·.links) :=
      List.mem_flatMap.mpr ⟨record, member, List.mem_map_of_mem refers⟩
    unfold acronymOf?
    rw [lists.undefined, Option.map_none, Option.none_or]
    exact lists.links.mpr linked
  · have found : loaded.tableOf? reference.fid = some record.table := by
      refine wellFormed.tableOf?_eq_some_iff.mpr ⟨?_, List.mem_map_of_mem refers⟩
      rw [← Array.mem_toList_iff, lists.tables]
      exact List.mem_map_of_mem member
    unfold enumLabel?
    rw [found, Option.bind_some, record.get?_table]
  · have absent : loaded.tableOf? fid = none := by
      refine Option.eq_none_iff_forall_ne_some.mpr fun table found => other ?_
      obtain ⟨member, inside⟩ := wellFormed.tableOf?_eq_some_iff.mp found
      rw [← Array.mem_toList_iff, lists.tables] at member
      obtain ⟨record, known, rfl⟩ := List.mem_map.mp member
      exact List.mem_flatMap.mpr ⟨record, known, inside⟩
    unfold enumLabel?
    rw [absent, Option.bind_none]

/-- A table to which two fields refer, with a display of bytes that are no text, and a table of another field. -/
def tickTable : TableRecord where
  references := [⟨"TICK_A", 14, by decide +kernel, by decide +kernel, by decide +kernel, by decide +kernel⟩,
    ⟨"TICK_B", 270, by decide +kernel, by decide +kernel, by decide +kernel, by decide +kernel⟩]
  values := [⟨1, Bytes.ofString "UP", "up tick", ⟨by decide +kernel, by decide +kernel⟩, by decide +kernel⟩,
    ⟨2, [0xDE, 0x00], "", ⟨by decide +kernel, by decide +kernel⟩, by decide +kernel⟩]
  referenced := List.cons_ne_nil _ _
  filled := List.cons_ne_nil _ _
  distinct := by decide

def sideTable : TableRecord where
  references := [⟨"SIDE", -7, by decide +kernel, by decide +kernel, by decide +kernel, by decide +kernel⟩]
  values := [⟨0, Bytes.ofString "N", "none", ⟨by decide +kernel, by decide +kernel⟩, by decide +kernel⟩]
  referenced := List.cons_ne_nil _ _
  filled := List.cons_ne_nil _ _
  distinct := by decide

def tickFile : Bytes := Bytes.ofString
  "! ticks\r\n TICK_A 14\n TICK_B 270\n 1 \"UP\" up tick\n\n 2 #dE00# \n SIDE -7\n 0 \"N\" none\n"

theorem tells_tickFile : ∃ lines, Line.Tells EnumRecord.Form ([tickTable, sideTable].flatMap (·.lines)) lines ∧
    Line.join lines = tickFile := by
  have reference {told : ReferenceRecord} : (EnumRecord.reference told).Form (spaced _ []) :=
    .reference (lays_spaced _ (.text .nil .nil) nofun)
  have value {told : ValueRecord} {display : Token} (displays : Displays told.display display) :
      (EnumRecord.value told).Form (spaced _ ([0x20] ++ Bytes.ofString told.meaning ++ [])) :=
    .value displays (lays_spaced _ (.text (List.forall_mem_singleton.mpr (by decide)) .nil) (by rintro _ ⟨⟩; rfl))
  have comment : Line.Quiet ([] ++ Line.commentMark :: Bytes.ofString " ticks\r") :=
    .comment _ _ .nil (by decide +kernel) (by decide +kernel)
  refine ⟨_, .quiet comment (.item reference (.item reference (.item (value (.quoted ?_ ?_ ?_)) (.quiet (.blank .nil)
    (.item (value (.hex (.cons 0xDE false true (.cons 0x00 false false .nil)))) (.item reference
      (.item (value (.quoted ?_ ?_ ?_)) .nil))))))), ?_⟩
  all_goals decide +kernel

theorem parseEnums_written_ticks : ([tickTable, sideTable].flatMap (·.fids)).Nodup ∧
    ∃ loaded, parseEnums tickFile (empty.withNames false) = .ok () loaded ∧
      loaded.enumLabel? 270 2 = some ⟨[0xDE, 0x00], ""⟩ ∧ loaded.enumLabel? (-7) 2 = none := by
  have distinct : ([tickTable, sideTable].flatMap (·.fids)).Nodup := by decide
  obtain ⟨lines, tells, same⟩ := tells_tickFile
  have spells : Line.Spells tickFile lines := same ▸ .closed lines
  obtain ⟨loaded, parsed, -, found, -⟩ := parseEnums_written (List.cons_ne_nil _ _) distinct spells tells false
  refine ⟨distinct, loaded, parsed, ?_, ?_⟩
  · exact ((found tickTable (by simp) _ (List.mem_cons_of_mem _ List.mem_cons_self)).2 2 _).mpr (by decide +kernel)
  · refine Option.eq_none_iff_forall_ne_some.mpr fun label known => ?_
    have told := ((found sideTable (by simp) _ List.mem_cons_self).2 2 label).mp known
    simp [TableRecord.labels, sideTable] at told

end Dictionary

end MarketWire
