import MarketWire.Proofs.Tokens

/-! Files of field definitions are read as they are written.

Records are written one on a line, in any layout, with blank lines and comments between them. Such a file defines the
fields of its records and nothing else. A record that ends too early is refused with the number of its line.
-/

set_option autoImplicit false

namespace MarketWire

/-! ## Keywords -/

theorem FieldType.isWord_keyword {word : String} {type : FieldType} (known : FieldType.ofKeyword? word = some type) :
    IsWord word := by
  unfold FieldType.ofKeyword? at known
  split at known
  case isTrue same =>
    rw [same]
    decide +kernel
  case isFalse =>
    have all : ∀ type ∈ FieldType.all, IsWord type.keyword := by decide +kernel
    have same : type.keyword = word := by simpa using List.find?_some known
    rw [← same]
    exact all type (List.mem_of_find?_eq_some known)

theorem DataType.isWord_keyword {word : String} {type : DataType} (known : DataType.ofKeyword? word = some type) :
    IsWord word := by
  obtain ⟨before, behind, divided, -⟩ := List.lookup_eq_some_iff.mp known
  have all : ∀ keyword ∈ DataType.keywords, IsWord keyword.1 := by decide +kernel
  exact all (word, type) (by rw [divided]; simp)

theorem ofKeyword?_empty : FieldType.ofKeyword? "" = none ∧ DataType.ofKeyword? "" = none := by
  constructor <;> decide

/-! ## Records -/

structure FieldRecord where
  acronym : String
  longName : String
  fid : Int16
  ripple : String
  typeWord : String
  fieldType : FieldType
  length : UInt16
  enumLength : Option UInt8
  wireWord : String
  wireType : DataType
  wireLength : UInt16
  acronymWord : IsWord acronym
  loud : (Bytes.ofString acronym).head? ≠ some Line.commentMark
  nameSingle : Scan.quote ∉ Bytes.ofString longName
  nameWhole : 0x0A ∉ Bytes.ofString longName
  defined : fid ≠ 0
  rippleWord : IsWord ripple
  typeKnown : FieldType.ofKeyword? typeWord = some fieldType
  wireKnown : DataType.ofKeyword? wireWord = some wireType

namespace FieldRecord

def enumTokens : Option UInt8 → List Token
  | some length => [.opening, .numeral length.toNat, .closing]
  | none => []

def tokens (record : FieldRecord) : List Token :=
  .word record.acronym record.acronymWord ::
  .enclosed Scan.quote (Bytes.ofString record.longName) (.inl rfl) record.nameSingle record.nameWhole ::
  .numeral record.fid.toInt ::
  .word record.ripple record.rippleWord ::
  .word record.typeWord (FieldType.isWord_keyword record.typeKnown) ::
  .numeral record.length.toNat ::
  (enumTokens record.enumLength ++
    [.word record.wireWord (DataType.isWord_keyword record.wireKnown), .numeral record.wireLength.toNat])

/-- The definition that a record gives, as long as it does not ripple. -/
def definition (record : FieldRecord) : FieldDefinition where
  fid := record.fid
  acronym := record.acronym
  longName := record.longName
  fieldType := record.fieldType
  length := record.length
  enumLength := record.enumLength.getD 0
  wireType := record.wireType
  wireLength := record.wireLength

end FieldRecord

/-! ## Scanning -/

/-- A scanner takes some tokens of every layout for a value, and fails where only some of them are left. -/
structure Takes {α : Type} (scan : Scan α) (tokens : List Token) (value : α) : Prop where
  whole : ∀ {text behind line}, Lays text (tokens ++ behind) line →
    ∃ rest, scan line = .ok value rest ∧ Lays text behind rest
  cut : ∀ {before line}, before <+: tokens → before ≠ tokens → Lays [] before line →
    ∃ reason rest, scan line = .error reason rest

namespace Takes

variable {α β : Type} {first : Scan α} {next : α → Scan β} {value : α} {answer : β} {token : Token}
  {tokens : List Token}

theorem pure (value : α) : Takes (pure value) [] value where
  whole {_ _ line} lays := ⟨line, rfl, lays⟩
  cut shorter other _ := absurd (List.prefix_nil.mp shorter) other

theorem demand {value? : Option α} (found : value? = some value) (reason : String)
    (later : Takes (next value) tokens answer) : Takes (Scan.demand reason value? >>= next) tokens answer := by
  rw [found]
  exact later

-- Each step takes one token; the tokens in front of a cut are either taken or all gone.
theorem step
    (taken : ∀ {text tokens line}, Lays text (token :: tokens) line →
      ∃ rest, first line = .ok value rest ∧ Lays text tokens rest)
    (ended : ∀ {line}, Lays [] [] line → ∃ reason rest, (first >>= next) line = .error reason rest)
    (later : Takes (next value) tokens answer) : Takes (first >>= next) (token :: tokens) answer where
  whole lays := by
    obtain ⟨rest, run, lays⟩ := taken lays
    rw [Program.bind_ok run]
    exact later.whole lays
  cut {before line} shorter other lays := by
    cases before with
    | nil => exact ended lays
    | cons head before =>
      obtain ⟨rfl, shorter'⟩ := List.cons_prefix_cons.mp shorter
      obtain ⟨rest, run, lays⟩ := taken lays
      rw [Program.bind_ok run]
      exact later.cut shorter' (fun same => other (congrArg _ same)) lays

theorem word {next : String → Scan β} {name : String} {isWord : IsWord name} (reason : String)
    (later : Takes (next name) tokens answer) :
    Takes (Scan.word reason >>= next) (.word name isWord :: tokens) answer := by
  refine step (fun lays => ?_) (fun lays => ?_) later
  · obtain ⟨rest, run, lays⟩ := lays.word?
    exact ⟨rest, Program.bind_ok run, lays⟩
  · exact ⟨_, _, Program.bind_error (Program.bind_ok lays.word?_nil)⟩

theorem numberBelow {next : Nat → Scan β} {limit n : Nat} (below : n < limit) (reason : String)
    (later : Takes (next n) tokens answer) :
    Takes (Scan.numberBelow limit reason >>= next) (.numeral n :: tokens) answer := by
  refine step (fun lays => ?_) (fun lays => ?_) later
  · obtain ⟨rest, run, lays⟩ := lays.word?
    refine ⟨rest, (Program.bind_ok run).trans ?_, lays⟩
    have value : Integer.below? limit (toString (n : Int)).toList = some n := Integer.below?_repr below
    rw [Option.bind_some, value]
    rfl
  · exact ⟨_, _, Program.bind_error (Program.bind_ok lays.word?_nil)⟩

/-- A word that is missing is read as the empty one, which is no keyword. -/
theorem keyword {name : String} {isWord : IsWord name} {find? : String → Option α} (known : find? name = some value)
    (unknown : find? "" = none) (reason : Option String → String) (later : Takes (next value) tokens answer) :
    Takes (Scan.word? >>= fun word => Scan.demand (reason word) (find? (word.getD "")) >>= next)
      (.word name isWord :: tokens) answer := by
  refine step Lays.word? (fun lays => ?_) (demand known _ later)
  have refused : Scan.demand (reason none) (find? "") [] = .error (reason none) [] := by
    rw [unknown]
    rfl
  exact ⟨_, _, (Program.bind_ok lays.word?_nil).trans (Program.bind_error refused)⟩

theorem delimited {next : Bytes → Scan β} {mark : UInt8} {content : Bytes}
    {known : mark = Scan.quote ∨ mark = Scan.hash} {single : mark ∉ content} {whole : 0x0A ∉ content}
    (reason : String) (later : Takes (next content) tokens answer) :
    Takes (Scan.delimited? mark >>= fun content => Scan.demand reason content >>= next)
      (.enclosed mark content known single whole :: tokens) answer := by
  refine step Lays.delimited? (fun lays => ?_) (demand rfl _ later)
  exact ⟨_, _, (Program.bind_ok (lays.delimited?_nil mark)).trans (Program.bind_error rfl)⟩

theorem noEnumLength {next : UInt8 → Scan β} {name : String} {isWord : IsWord name}
    (later : Takes (next 0) (.word name isWord :: tokens) answer) :
    Takes (Scan.enumLength >>= next) (.word name isWord :: tokens) answer := by
  have other : (Token.word name isWord).bytes.head? ≠ some Scan.openParenthesis := by
    intro found
    have plain := isWord.plain _ (List.mem_of_mem_head? found)
    cases plain
  have passed {text tokens line} (lays : Lays text (.word name isWord :: tokens) line) :
      ∃ rest, Scan.enumLength line = .ok 0 rest ∧ Lays text (.word name isWord :: tokens) rest := by
    obtain ⟨rest, run, lays⟩ := lays.take_other other
    exact ⟨rest, Program.bind_ok run, lays⟩
  have absent {line} (lays : Lays [] [] line) : Scan.enumLength line = .ok 0 [] :=
    Program.bind_ok (lays.take_nil _)
  -- A cut leaves the word or nothing at all, and there is no parenthesis in either case.
  constructor
  · intro text behind line lays
    obtain ⟨rest, run, lays⟩ := passed lays
    rw [Program.bind_ok run]
    exact later.whole lays
  · intro before line shorter different lays
    cases before with
    | nil =>
      rw [Program.bind_ok (absent lays)]
      exact later.cut shorter different (.text .nil .nil)
    | cons head before =>
      obtain ⟨rfl, -⟩ := List.cons_prefix_cons.mp shorter
      obtain ⟨rest, run, lays⟩ := passed lays
      rw [Program.bind_ok run]
      exact later.cut shorter different lays

theorem enumLength {next : UInt8 → Scan β} (answer : UInt8 → β) (length? : Option UInt8) {name : String}
    {isWord : IsWord name} (later : ∀ length, Takes (next length) (.word name isWord :: tokens) (answer length)) :
    Takes (Scan.enumLength >>= next) (FieldRecord.enumTokens length? ++ .word name isWord :: tokens)
      (answer (length?.getD 0)) := by
  cases length? with
  | none => exact noEnumLength (later 0)
  | some length =>
    -- The opening parenthesis is a step of its own: a line that ends in front of it has no length, and fails later.
    unfold Scan.enumLength
    rw [bind_assoc]
    refine step (Lays.take rfl) (fun lays => ?_) ?_
    · rw [Program.bind_ok (lays.take_nil _)]
      exact (later 0).cut List.nil_prefix (List.cons_ne_nil _ _).symm (.text .nil .nil)
    · rw [if_pos rfl, bind_assoc]
      refine numberBelow length.toNat_lt _ ?_
      rw [bind_assoc, UInt8.ofNat_toNat]
      exact step (Lays.take rfl) (fun lays => ⟨_, _, Program.bind_ok (lays.take_nil _)⟩) (later length)

end Takes

namespace FieldRecord

/-- The scanner of lines takes the tokens of a record, all of them, for its definition. -/
theorem takes (record : FieldRecord) : Takes Scan.field record.tokens
    (record.definition, if record.ripple = "NULL" then none else some record.ripple) := by
  -- One step for each token, in the order in which the scanner asks for them.
  unfold Scan.field
  refine .word _ (.delimited _ (.word _ (.demand (Scan.fid?_toString record.fid) _ (.word _ ?_))))
  refine .keyword record.typeKnown ofKeyword?_empty.1 _ ?_
  refine .numberBelow record.length.toNat_lt _ ?_
  refine .enumLength (fun enumLength => ({ record.definition with enumLength }, _)) _ fun length => ?_
  refine .keyword record.wireKnown ofKeyword?_empty.2 _ ?_
  refine .numberBelow record.wireLength.toNat_lt _ ?_
  rw [Utf8.decodeLossy_ofString, UInt16.ofNat_toNat, UInt16.ofNat_toNat]
  exact .pure _

def Form (record : FieldRecord) (line : Bytes) : Prop := Lays [] record.tokens line

theorem Form.whole {record : FieldRecord} {line : Bytes} (form : record.Form line) : 0x0A ∉ line :=
  Lays.whole List.not_mem_nil form

theorem Form.fieldLine {record : FieldRecord} {line : Bytes} (form : record.Form line) :
    ∃ told : FieldLine, record.definition = told.field ∧ told.bytes = line := by
  obtain ⟨content, found, lays⟩ := (Lays.dropReturn .nil form).ofBytes record.loud
  rw [← List.append_nil (_ :: _)] at lays
  obtain ⟨rest, run, -⟩ := record.takes.whole lays
  refine ⟨⟨line, record.definition, record.ripple, form.whole, ?_⟩, rfl, rfl⟩
  unfold readField?
  rw [found]
  dsimp only
  rw [run]

/-- Lines write records, but the line with some number ends before the last token of its record. -/
inductive CutShort : List FieldRecord → List Bytes → Nat → Prop where
  | record {front back : List FieldRecord} {before behind : List Bytes} {record : FieldRecord} {tokens : List Token}
      {line : Bytes} (told : Line.Tells Form front before) (shorter : tokens <+: record.tokens) (nonempty : tokens ≠ [])
      (other : tokens ≠ record.tokens) (lays : Lays [] tokens line) (others : Line.Tells Form back behind) :
      CutShort (front ++ record :: back) (before ++ line :: behind) (before.length + 1)

theorem CutShort.whole {records : List FieldRecord} {lines : List Bytes} {number : Nat}
    (short : CutShort records lines number) : ∀ line ∈ lines, 0x0A ∉ line := by
  cases short with
  | record told shorter nonempty other lays others =>
    exact List.forall_mem_append.mpr ⟨told.whole Form.whole,
      List.forall_mem_cons.mpr ⟨lays.whole List.not_mem_nil, others.whole Form.whole⟩⟩

theorem refused {record : FieldRecord} {tokens : List Token} {line : Bytes} (shorter : tokens <+: record.tokens)
    (nonempty : tokens ≠ []) (other : tokens ≠ record.tokens) (lays : Lays [] tokens line) :
    ∃ content reason rest, Line.ofBytes (Line.dropReturn line) = .words content ∧
      Scan.field content = .error reason rest := by
  obtain ⟨token, left, rfl⟩ := List.exists_cons_of_ne_nil nonempty
  obtain ⟨rfl, -⟩ := List.cons_prefix_cons.mp shorter
  obtain ⟨content, words, lays⟩ := (Lays.dropReturn .nil lays).ofBytes record.loud
  obtain ⟨reason, rest, failed⟩ := record.takes.cut shorter other lays
  exact ⟨content, reason, rest, words, failed⟩

end FieldRecord

namespace Dictionary

/-! ## Adding lines -/

section
variable {σ : Type} [Store σ]

theorem addFieldLines_loud (ripples : List (Int16 × String)) (lines : List (Line × Nat)) :
    (addFieldLines ripples (Line.loud lines) : Store.Update σ _) = addFieldLines ripples lines := by
  induction lines generalizing ripples with
  | nil => rfl
  | cons line rest ih =>
    obtain ⟨line, number⟩ := line
    cases line with
    | nothing => exact ih ripples
    | tag name value =>
      change (do applyFieldTag number name value; addFieldLines ripples (Line.loud rest) : Store.Update σ _) = _
      rw [ih, addFieldLines]
    | words content =>
      change (addFieldLines ripples ((.words content, number) :: Line.loud rest) : Store.Update σ _) = _
      simp only [addFieldLines, ih]

theorem addFieldLines_append (ripples : List (Int16 × String)) (front back : List (Line × Nat)) :
    (addFieldLines ripples (front ++ back) : Store.Update σ _) =
      addFieldLines ripples front >>= fun found => addFieldLines found.reverse back := by
  induction front generalizing ripples with
  | nil => rw [List.nil_append, addFieldLines, pure_bind, List.reverse_reverse]
  | cons line rest ih =>
    obtain ⟨line, number⟩ := line
    cases line with
    | nothing => exact ih ripples
    | tag name value => simp only [List.cons_append, addFieldLines, ih, bind_assoc]
    | words content =>
      simp only [List.cons_append, addFieldLines, bind_assoc]
      congr 1
      funext found
      cases found.2 <;> simp only [ih]

end

section
variable {records : List FieldRecord} (distinct : (records.map (·.fid)).Nodup)
include distinct

theorem addFieldLines_records {lines : List Bytes} (tells : Line.Tells FieldRecord.Form records lines) (start : Nat)
    (keep : Bool) : ∃ ripples,
      addFieldLines [] ((lines.map fun line => Line.ofBytes (Line.dropReturn line)).zipIdx start)
        (empty.withNames keep) =
      .ok ripples ((records.map (·.definition)).foldl insertField (empty.withNames keep)) := by
  obtain ⟨told, same, given⟩ := tells.heard (fun record (told : FieldLine) => record.definition = told.field)
    (fun told => Line.ofBytes (Line.dropReturn told.bytes)) fun form => by
      obtain ⟨told, same, rfl⟩ := form.fieldLine
      obtain ⟨content, rest, words, -⟩ := told.scans
      exact ⟨told, same, by rw [words]; exact nofun, rfl⟩
  have fields : records.map (·.definition) = told.map (·.field) := by
    rwa [← List.forall₂_eq_eq_eq, List.forall₂_map_left_iff, List.forall₂_map_right_iff]
  have fids : records.map (·.fid) = told.map (·.field.fid) := by
    have same := congrArg (List.map (·.fid)) fields
    rwa [List.map_map, List.map_map] at same
  have defined : ∀ line ∈ told, line.field.fid ≠ 0 := by
    intro line member
    have inside : line.field.fid ∈ records.map (·.fid) := fids ▸ List.mem_map_of_mem member
    obtain ⟨record, -, same⟩ := List.mem_map.mp inside
    exact same ▸ record.defined
  rw [← addFieldLines_loud, fields]
  exact ⟨_, addFieldLines_ok ((Line.map_fst_loud _ _).trans given) defined (fids ▸ distinct) []
    (fun _ => Std.ExtTreeMap.not_mem_empty) fun line _ => Std.ExtTreeMap.getElem?_empty⟩

/-! ## Files -/

/-- Ripples aside, the definitions that records leave are theirs. -/
theorem perm_resolveRipples {ripples : List (Int16 × String)} {keep : Bool} {loaded : Dictionary}
    (wellFormed : loaded.WellFormed) (same : loaded =
      resolveRipples ripples ((records.map (·.definition)).foldl insertField (empty.withNames keep))) :
    (loaded.toList.map fun field => { field with rippleTo := 0 }).Perm (records.map (·.definition)) := by
  have fids : ((records.map (·.definition)).map (·.fid)).Nodup := by
    rw [List.map_map]
    exact distinct
  have unrippled (fid : Int16) : (loaded.get? fid).map (fun field => { field with rippleTo := 0 }) =
      (((records.map (·.definition)).foldl insertField (empty.withNames keep)).get? fid).map
        fun field => { field with rippleTo := 0 } := by
    rw [same, resolveRipples_eq]
    exact map_ripples _ _ (fun _ _ => rfl) ripples fid
  have listed : ((loaded.toList.map fun field => { field with rippleTo := 0 }).map (·.fid)).Nodup := by
    rw [List.map_map]
    exact wellFormed.toList_nodup
  -- No identifier occurs twice on either side, so it is enough to compare members.
  refine (List.perm_ext_iff_of_nodup listed.of_map fids.of_map).mpr fun entry => ?_
  rw [List.mem_map]
  constructor
  · rintro ⟨field, member, rfl⟩
    have found := unrippled field.fid
    rw [wellFormed.mem_toList.mp member, eq_comm, Option.map_some, Option.map_eq_some_iff] at found
    obtain ⟨own, defined, same⟩ := found
    obtain ⟨inside, -⟩ := (get?_fields fids keep).mp defined
    obtain ⟨record, -, rfl⟩ := List.mem_map.mp inside
    rwa [← same]
  · intro inside
    have found := unrippled entry.fid
    rw [(get?_fields fids keep).mpr ⟨inside, rfl⟩, Option.map_some, Option.map_eq_some_iff] at found
    obtain ⟨field, defined, same⟩ := found
    obtain ⟨record, -, rfl⟩ := List.mem_map.mp inside
    have fid : field.fid = record.fid := congrArg FieldDefinition.fid same
    exact ⟨field, wellFormed.mem_toList.mpr (fid ▸ defined), same⟩

/-- A file of records, in any layout, defines the fields of its records and nothing else. If the line of one record ends
before its last token, the file is refused with the number of this line, and nothing is defined. -/
theorem parseFields_written {lines : List Bytes} {text : Bytes} (spells : Line.Spells text lines) (keep : Bool) :
    (Line.Tells FieldRecord.Form records lines →
      ∃ loaded, parseFields text (empty.withNames keep) = .ok () loaded ∧
        (loaded.toList.map fun field => { field with rippleTo := 0 }).Perm (records.map (·.definition))) ∧
    ∀ {number : Nat}, FieldRecord.CutShort records lines number →
      ∃ reason, parseFields text (empty.withNames keep) = .error (.parse number reason) (empty.withNames keep) := by
  constructor
  · intro tells
    obtain ⟨ripples, added⟩ := addFieldLines_records distinct tells 1 keep
    have parsed : parseFields text (empty.withNames keep) = .ok () (resolveRipples ripples
        ((records.map (·.definition)).foldl insertField (empty.withNames keep))) := by
      refine transaction_eq_ok.mpr (Program.bind_ok ?_)
      rw [Line.ofText, Line.cut_of_spells spells (tells.whole FieldRecord.Form.whole), added]
    have wellFormed := (wellFormed_invariant.updates.alike.parseFields text).keeps.of_ok
      (wellFormed_invariant.names wellFormed_invariant.empty keep) parsed
    exact ⟨_, parsed, perm_resolveRipples distinct wellFormed rfl⟩
  · intro number short
    have whole := short.whole
    cases short with
    | @record front back before behind record tokens line told shorter nonempty other lays others =>
      -- The records in front are added without an error, so the one of the short line is the first.
      have first : (front.map (·.fid)).Nodup := by
        rw [List.map_append] at distinct
        exact distinct.of_append_left
      obtain ⟨ripples, added⟩ := addFieldLines_records first told 1 keep
      obtain ⟨content, reason, rest, words, failed⟩ := FieldRecord.refused shorter nonempty other lays
      have stops : addFieldLines [] (Line.ofText text) (empty.withNames keep) =
          .error (.parse (before.length + 1) reason)
            ((front.map (·.definition)).foldl insertField (empty.withNames keep)) := by
        rw [Line.ofText, Line.cut_of_spells spells whole, List.map_append, List.map_cons, words, List.zipIdx_append,
          addFieldLines_append, Program.bind_ok added, List.length_map, List.zipIdx_cons, Nat.add_comm 1, addFieldLines]
        refine Program.bind_error ?_
        unfold scanLine
        rw [failed]
        rfl
      exact ⟨reason, transaction_error (Program.bind_error stops)⟩

end

def bidRecord : FieldRecord where
  acronym := "BID"
  longName := "BID"
  fid := 22
  ripple := "BID_1"
  typeWord := "PRICE"
  fieldType := .price
  length := 17
  enumLength := none
  wireWord := "REAL64"
  wireType := .real
  wireLength := 7
  acronymWord := by decide +kernel
  loud := by decide +kernel
  nameSingle := by decide +kernel
  nameWhole := by decide +kernel
  defined := by decide
  rippleWord := by decide +kernel
  typeKnown := by decide
  wireKnown := by decide

def tickRecord : FieldRecord where
  acronym := "TICK_1"
  longName := "PRICE TICK"
  fid := -4
  ripple := "NULL"
  typeWord := "ENUMERATED"
  fieldType := .enumerated
  length := 2
  enumLength := some 5
  wireWord := "ENUM"
  wireType := .enum
  wireLength := 1
  acronymWord := by decide +kernel
  loud := by decide +kernel
  nameSingle := by decide +kernel
  nameWhole := by decide +kernel
  defined := by decide
  rippleWord := by decide +kernel
  typeKnown := by decide
  wireKnown := by decide

/-- A comment, the record of a price and a blank line, and another line behind them. -/
def quoteFile (last : String) : Bytes :=
  Bytes.ofString ("! fields\r\n BID \"BID\" 22 BID_1 PRICE 17 REAL64 7\r\n\n" ++ last)

theorem parseFields_written_quotes : ([bidRecord, tickRecord].map (·.fid)).Nodup ∧
    (∃ loaded, parseFields (quoteFile " TICK_1 \"PRICE TICK\" -4 NULL ENUMERATED 2 ( 5 ) ENUM 1")
        (empty.withNames true) = .ok () loaded ∧
      (loaded.toList.map fun field => { field with rippleTo := 0 }).Perm
        ([bidRecord, tickRecord].map (·.definition))) ∧
    ∃ reason, parseFields (quoteFile " TICK_1 \"PRICE TICK\" -4 NULL ENUMERATED 2 ( 5") (empty.withNames true) =
      .error (.parse 4 reason) (empty.withNames true) := by
  have distinct : ([bidRecord, tickRecord].map (·.fid)).Nodup := by decide
  let front : List Bytes := [Bytes.ofString "! fields\r", spaced bidRecord.tokens [0x0D], []]
  have told {records : List FieldRecord} {lines : List Bytes} (later : Line.Tells FieldRecord.Form records lines) :
      Line.Tells FieldRecord.Form (bidRecord :: records) (front ++ lines) := by
    refine .quiet (.comment [] (Bytes.ofString " fields\r") .nil (by decide +kernel) (by decide +kernel)) ?_
    exact .item (lays_spaced _ (.text .nil (List.forall_mem_singleton.mpr (by decide))) (by rintro _ ⟨⟩; rfl))
      (.quiet (.blank .nil) later)
  have spells (tokens : List Token) (nonempty : spaced tokens [] ≠ []) :
      Line.Spells (Line.join front ++ spaced tokens []) (front ++ [spaced tokens []]) := .opened front nonempty
  have whole : Line.join front ++ spaced tickRecord.tokens [] =
      quoteFile " TICK_1 \"PRICE TICK\" -4 NULL ENUMERATED 2 ( 5 ) ENUM 1" := by decide +kernel
  have short : Line.join front ++ spaced (tickRecord.tokens.take 8) [] =
      quoteFile " TICK_1 \"PRICE TICK\" -4 NULL ENUMERATED 2 ( 5" := by decide +kernel
  rw [← whole, ← short]
  refine ⟨distinct, ?_, ?_⟩
  · refine (parseFields_written distinct (spells tickRecord.tokens (by decide +kernel)) true).1 (told ?_)
    exact .item (lays_spaced _ (.text .nil .nil) nofun) .nil
  · refine (parseFields_written distinct (spells (tickRecord.tokens.take 8) (by decide +kernel)) true).2 ?_
    have leading : Line.Tells FieldRecord.Form [bidRecord] front := told .nil
    exact .record leading (List.take_prefix _ _) (by decide) (ne_of_apply_ne List.length (by decide))
      (lays_spaced _ (.text .nil .nil) nofun) .nil

end Dictionary

end MarketWire
