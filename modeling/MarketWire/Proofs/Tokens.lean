import MarketWire.Proofs.LineOrder
import MarketWire.Proofs.Numerals

/-! Tokens on a line of a definition file, and what the scanners take of them.

A layout has blanks wherever there may be some. Only a word needs something behind it, a blank or a parenthesis, to be
told from what follows. The scanners are shown to take one token each of every layout.
-/

set_option autoImplicit false

namespace MarketWire

/-! ## Blanks -/

namespace Blank

/-- Blanks on a line. A carriage return at its end is one of them. -/
def IsRun (blanks : Bytes) : Prop := ∀ byte ∈ blanks, isBlankByte byte ∧ byte ≠ 0x0A

structure IsTrimmed (text : Bytes) : Prop where
  first : ∀ byte ∈ text.head?, isBlankByte byte = false
  last : ∀ byte ∈ text.getLast?, isBlankByte byte = false

theorem IsTrimmed.nil : IsTrimmed [] := ⟨nofun, nofun⟩

theorem IsRun.nil : IsRun [] := nofun

theorem IsRun.whole {blanks : Bytes} (run : IsRun blanks) : 0x0A ∉ blanks := fun member => (run _ member).2 rfl

theorem trimStart_run {blanks : Bytes} (run : IsRun blanks) (line : Bytes) :
    trimStart (blanks ++ line) = trimStart line :=
  List.dropWhile_append_of_pos fun byte member => (run byte member).1

theorem trimStart_of_first {line : Bytes} (first : ∀ byte ∈ line.head?, isBlankByte byte = false) :
    trimStart line = line :=
  dropWhile_of_head? first

theorem IsRun.trimStart {blanks : Bytes} (run : IsRun blanks) : trimStart blanks = [] := by
  rw [← List.append_nil blanks, trimStart_run run]
  rfl

theorem trimEnd_run {blanks line : Bytes} (run : IsRun blanks) : trimEnd (line ++ blanks) = trimEnd line := by
  unfold trimEnd
  rw [List.reverse_append, List.dropWhile_append_of_pos]
  exact fun byte member => (run byte (List.mem_reverse.mp member)).1

theorem trimEnd_of_last {line : Bytes} (last : ∀ byte ∈ line.getLast?, isBlankByte byte = false) :
    trimEnd line = line := by
  unfold trimEnd
  rw [← List.head?_reverse] at last
  exact (congrArg List.reverse (trimStart_of_first last)).trans (List.reverse_reverse line)

theorem trim_around {before text behind : Bytes} (first : IsRun before) (trimmed : IsTrimmed text)
    (last : IsRun behind) : trimEnd (trimStart (before ++ text ++ behind)) = text := by
  rw [List.append_assoc, trimStart_run first]
  cases text with
  | nil => rw [List.nil_append, last.trimStart, trimEnd_of_last IsTrimmed.nil.last]
  | cons byte rest =>
    have solid : ∀ first ∈ (byte :: rest ++ behind).head?, isBlankByte first = false := trimmed.first
    rw [trimStart_of_first solid, trimEnd_run last, trimEnd_of_last trimmed.last]

end Blank

/-! ## Tokens -/

/-- A text that stands on a line as one word: it is not empty and has no blanks or parentheses. -/
structure IsWord (text : String) : Prop where
  filled : text ≠ ""
  plain : ∀ byte ∈ Bytes.ofString text, Scan.isWordByte byte

instance (text : String) : Decidable (IsWord text) :=
  decidable_of_iff ((!text.isEmpty && (Bytes.ofString text).all Scan.isWordByte) = true) <| by
    rw [Bool.and_eq_true, Bool.not_eq_true', Bool.eq_false_iff, ne_eq, String.isEmpty_iff, List.all_eq_true]
    exact ⟨fun ⟨filled, plain⟩ => ⟨filled, plain⟩, fun ⟨filled, plain⟩ => ⟨filled, plain⟩⟩

inductive Token where
  | word (text : String) (isWord : IsWord text)
  | enclosed (mark : UInt8) (content : Bytes) (known : mark = Scan.quote ∨ mark = Scan.hash)
      (single : mark ∉ content) (whole : 0x0A ∉ content)
  | opening
  | closing

namespace Token

def bytes : Token → Bytes
  | word text _ => Bytes.ofString text
  | enclosed mark content .. => mark :: content ++ [mark]
  | opening => [Scan.openParenthesis]
  | closing => [Scan.closeParenthesis]

/-- A word goes on until a byte that belongs to no word; other tokens end by themselves. -/
def EndsBefore : Token → Bytes → Prop
  | word .., line => ∀ byte ∈ line.head?, Scan.isWordByte byte = false
  | _, _ => True

end Token

namespace Scan

theorem isBlankByte_of_isWordByte {byte : UInt8} (plain : isWordByte byte) : Blank.isBlankByte byte = false := by
  unfold isWordByte at plain
  simp only [Bool.and_eq_true, Bool.not_eq_true'] at plain
  exact plain.1.1

end Scan

namespace IsWord

variable {text : String} (isWord : IsWord text)
include isWord

theorem bytes_ne_nil : Bytes.ofString text ≠ [] := by
  intro missing
  have decoded := Utf8.decode_ofString text
  rw [missing] at decoded
  exact isWord.filled (Except.ok.inj (decoded.symm.trans (Utf8.decode_ofString "")))

theorem solid : ∀ byte ∈ Bytes.ofString text, Blank.isBlankByte byte = false := fun byte member =>
  Scan.isBlankByte_of_isWordByte (isWord.plain byte member)

end IsWord

theorem isWord_toString (i : Int) : IsWord (toString i) where
  filled := Scan.toString_ne_empty i
  plain _ member := (Scan.mem_bytes_toString member).1

namespace Token

def numeral (i : Int) : Token := .word (toString i) (isWord_toString i)

theorem bytes_ne_nil (token : Token) : token.bytes ≠ [] := by
  cases token with
  | word text isWord => exact isWord.bytes_ne_nil
  | _ => exact List.cons_ne_nil _ _

theorem trimmed (token : Token) : Blank.IsTrimmed token.bytes := by
  cases token with
  | word text isWord =>
    exact ⟨fun byte found => isWord.solid byte (List.mem_of_mem_head? found),
      fun byte found => isWord.solid byte (List.mem_of_mem_getLast? found)⟩
  | enclosed mark content known single whole =>
    have solid : Blank.isBlankByte mark = false := by rcases known with rfl | rfl <;> rfl
    constructor
    · rintro _ ⟨⟩
      exact solid
    · intro byte found
      rw [bytes, List.getLast?_append] at found
      cases found
      exact solid
  | opening | closing => constructor <;> (rintro _ ⟨⟩; rfl)

theorem whole (token : Token) : 0x0A ∉ token.bytes := by
  cases token with
  | word text isWord => exact fun member => Bool.noConfusion (isWord.solid _ member)
  | enclosed mark content known single whole =>
    have other : 0x0A ≠ mark := by rcases known with rfl | rfl <;> decide
    simp only [bytes, List.mem_append, List.mem_cons, List.not_mem_nil, or_false, not_or]
    exact ⟨⟨other, whole⟩, other⟩
  | opening | closing => decide

end Token

/-! ## Layouts -/

/-- A line lays out some tokens and a text behind them, with blanks around each. -/
inductive Lays (text : Bytes) : List Token → Bytes → Prop where
  | text {before behind : Bytes} (first : Blank.IsRun before) (last : Blank.IsRun behind) :
      Lays text [] (before ++ text ++ behind)
  | token {blanks line : Bytes} {token : Token} {tokens : List Token} (run : Blank.IsRun blanks)
      (ends : token.EndsBefore line) (lays : Lays text tokens line) :
      Lays text (token :: tokens) (blanks ++ token.bytes ++ line)

namespace Line

theorem dropReturn_append {line : Bytes} (nonempty : line ≠ []) (before : Bytes) :
    dropReturn (before ++ line) = before ++ dropReturn line := by
  unfold dropReturn
  rw [List.getLast?_append_of_ne_nil _ nonempty, List.dropLast_append_of_ne_nil nonempty]
  split <;> rfl

theorem dropReturn_of_last {line : Bytes} (last : ∀ byte ∈ line.getLast?, Blank.isBlankByte byte = false) :
    dropReturn line = line := by
  unfold dropReturn
  rw [if_neg]
  intro isReturn
  cases last _ isReturn

theorem dropReturn_prefix (line : Bytes) : dropReturn line <+: line := by
  unfold dropReturn
  split
  · exact List.dropLast_prefix line
  · exact List.prefix_rfl

end Line

theorem Blank.IsRun.dropReturn {blanks : Bytes} (run : IsRun blanks) : IsRun (Line.dropReturn blanks) :=
  fun byte member => run byte ((Line.dropReturn_prefix blanks).subset member)

namespace Token

theorem EndsBefore.dropReturn {token : Token} {line : Bytes} (ends : token.EndsBefore line) :
    token.EndsBefore (Line.dropReturn line) := by
  cases token with
  | word text isWord =>
    intro byte found
    obtain ⟨dropped, whole⟩ := Line.dropReturn_prefix line
    refine ends byte ?_
    rw [← whole, List.head?_append, Option.mem_def.mp found]
    rfl
  | _ => trivial

end Token

namespace Lays

variable {text : Bytes} {tokens : List Token} {line : Bytes}

-- A carriage return at the end of a line is one of its blanks.
theorem dropReturn (trimmed : Blank.IsTrimmed text) (lays : Lays text tokens line) :
    Lays text tokens (Line.dropReturn line) := by
  induction lays with
  | @text before behind first last =>
    by_cases bare : behind = []
    · subst bare
      by_cases empty : text = []
      · subst empty
        rw [List.append_nil, List.append_nil]
        simpa using (Lays.text first.dropReturn .nil : Lays [] [] _)
      · rw [List.append_nil, Line.dropReturn_append empty, Line.dropReturn_of_last trimmed.last]
        simpa using (Lays.text first .nil : Lays text [] _)
    · rw [Line.dropReturn_append bare]
      exact .text first last.dropReturn
  | @token blanks line token tokens run ends lays ih =>
    by_cases bare : line = []
    · subst bare
      rw [List.append_nil, Line.dropReturn_append token.bytes_ne_nil, Line.dropReturn_of_last token.trimmed.last]
      simpa using Lays.token run ends lays
    · rw [Line.dropReturn_append bare]
      exact .token run ends.dropReturn ih

theorem whole (textWhole : 0x0A ∉ text) (lays : Lays text tokens line) : 0x0A ∉ line := by
  induction lays with
  | text first last => simp [first.whole, last.whole, textWhole]
  | @token blanks line token tokens run ends lays ih => simp [run.whole, token.whole, ih]

/-- Behind the blanks of a line stands its first token, and the others behind it. -/
theorem unread {token : Token} (lays : Lays text (token :: tokens) line) : ∃ rest,
    Blank.trimStart line = token.bytes ++ rest ∧ token.EndsBefore rest ∧ Lays text tokens rest := by
  cases lays with
  | @token blanks rest _ _ run ends lays =>
    refine ⟨rest, ?_, ends, lays⟩
    rw [List.append_assoc, Blank.trimStart_run run]
    obtain ⟨first, others, same⟩ := List.exists_cons_of_ne_nil token.bytes_ne_nil
    have solid := token.trimmed.first
    rw [same] at solid ⊢
    exact Blank.trimStart_of_first solid

theorem unread_text (trimmed : Blank.IsTrimmed text) (lays : Lays text [] line) :
    Blank.trimEnd (Blank.trimStart line) = text := by
  cases lays with
  | text first last => exact Blank.trim_around first trimmed last

theorem unread_nil (lays : Lays [] [] line) : Blank.trimStart line = [] := by
  generalize bare : ([] : Bytes) = text at lays
  cases lays with
  | @text before behind first last =>
    subst bare
    rw [List.append_nil, Blank.trimStart_run first, last.trimStart]

/-! ## Scanners -/

theorem word? {name : String} {isWord : IsWord name} (lays : Lays text (.word name isWord :: tokens) line) :
    ∃ rest, Scan.word? line = .ok (some name) rest ∧ Lays text tokens rest := by
  obtain ⟨rest, found, ends, lays⟩ := lays.unread
  refine ⟨rest, ?_, lays⟩
  unfold Scan.word?
  dsimp only
  rw [found, Token.bytes, Blank.takeWhile_run ends isWord.plain, Blank.dropWhile_run ends isWord.plain,
    if_neg (by simpa using isWord.bytes_ne_nil), Utf8.decode_ofString]
  rfl

theorem word?_nil (lays : Lays [] [] line) : Scan.word? line = .ok none [] := by
  unfold Scan.word?
  rw [lays.unread_nil]
  rfl

theorem peek? {token : Token} (lays : Lays text (token :: tokens) line) : ∃ rest,
    Scan.peek? line = .ok token.bytes.head? rest ∧ Lays text (token :: tokens) rest := by
  obtain ⟨rest, found, ends, lays⟩ := lays.unread
  refine ⟨token.bytes ++ rest, ?_, by simpa using Lays.token .nil ends lays⟩
  unfold Scan.peek?
  dsimp only
  rw [found, List.head?_append_of_ne_nil _ token.bytes_ne_nil]

theorem delimited? {mark : UInt8} {content : Bytes} {known : mark = Scan.quote ∨ mark = Scan.hash}
    {single : mark ∉ content} {whole : 0x0A ∉ content}
    (lays : Lays text (.enclosed mark content known single whole :: tokens) line) :
    ∃ rest, Scan.delimited? mark line = .ok (some content) rest ∧ Lays text tokens rest := by
  obtain ⟨rest, found, -, lays⟩ := lays.unread
  have inside : ∀ byte ∈ content, decide (byte ≠ mark) = true := fun byte member =>
    decide_eq_true fun same => single (same ▸ member)
  have ends : ∀ byte ∈ (mark :: rest).head?, decide (byte ≠ mark) = false := by
    rintro _ ⟨⟩
    exact decide_eq_false (not_not_intro rfl)
  refine ⟨rest, ?_, lays⟩
  unfold Scan.delimited?
  rw [found, Token.bytes, List.append_assoc, List.cons_append]
  dsimp only
  rw [if_pos ⟨rfl, by simp⟩, List.singleton_append, Blank.takeWhile_run ends inside, Blank.dropWhile_run ends inside]
  rfl

theorem delimited?_nil (mark : UInt8) (lays : Lays [] [] line) : Scan.delimited? mark line = .ok none [] := by
  unfold Scan.delimited?
  rw [lays.unread_nil]

theorem take {mark : UInt8} {token : Token} (same : token.bytes = [mark]) (lays : Lays text (token :: tokens) line) :
    ∃ rest, Scan.take mark line = .ok true rest ∧ Lays text tokens rest := by
  obtain ⟨rest, found, -, lays⟩ := lays.unread
  refine ⟨rest, ?_, lays⟩
  unfold Scan.take
  rw [found, same, List.singleton_append]
  exact if_pos rfl

theorem take_other {mark : UInt8} {token : Token} (other : token.bytes.head? ≠ some mark)
    (lays : Lays text (token :: tokens) line) :
    ∃ rest, Scan.take mark line = .ok false rest ∧ Lays text (token :: tokens) rest := by
  obtain ⟨rest, found, ends, lays⟩ := lays.unread
  refine ⟨token.bytes ++ rest, ?_, by simpa using Lays.token .nil ends lays⟩
  obtain ⟨first, others, same⟩ := List.exists_cons_of_ne_nil token.bytes_ne_nil
  unfold Scan.take
  rw [found, same, List.cons_append]
  exact if_neg fun equal => other (by rw [same, equal, List.head?_cons])

theorem take_nil (mark : UInt8) (lays : Lays [] [] line) : Scan.take mark line = .ok false [] := by
  unfold Scan.take
  rw [lays.unread_nil]

theorem rest (trimmed : Blank.IsTrimmed text) (lays : Lays text [] line) : Scan.rest line = .ok text [] := by
  unfold Scan.rest
  rw [lays.unread_text trimmed]

theorem ofBytes {name : String} {isWord : IsWord name} (loud : (Bytes.ofString name).head? ≠ some Line.commentMark)
    (lays : Lays text (.word name isWord :: tokens) line) :
    ∃ content, Line.ofBytes line = .words content ∧ Lays text (.word name isWord :: tokens) content := by
  obtain ⟨rest, found, ends, lays⟩ := lays.unread
  refine ⟨Bytes.ofString name ++ rest, ?_, by simpa [Token.bytes] using Lays.token .nil ends lays⟩
  obtain ⟨first, others, same⟩ := List.exists_cons_of_ne_nil isWord.bytes_ne_nil
  have other : first ≠ Line.commentMark := fun equal => loud (by rw [same, equal, List.head?_cons])
  have untagged : Line.tagMark.isPrefixOf (first :: (others ++ rest)) = false := by
    change (Line.commentMark == first && _) = false
    rw [beq_eq_false_iff_ne.mpr (Ne.symm other), Bool.false_and]
  unfold Line.ofBytes
  rw [found, Token.bytes, same, List.cons_append]
  dsimp only
  rw [untagged, if_neg Bool.false_ne_true, if_neg other]

end Lays

def spaced (tokens : List Token) (behind : Bytes) : Bytes :=
  tokens.foldr (fun token line => [0x20] ++ token.bytes ++ line) behind

theorem lays_spaced (tokens : List Token) {text behind : Bytes} (last : Lays text [] behind)
    (ends : ∀ byte ∈ behind.head?, Scan.isWordByte byte = false) : Lays text tokens (spaced tokens behind) := by
  induction tokens with
  | nil => exact last
  | cons token rest ih =>
    refine .token (List.forall_mem_singleton.mpr (by decide)) ?_ ih
    cases token with
    | word text isWord =>
      cases rest with
      | nil => exact ends
      | cons =>
        rintro _ ⟨⟩
        rfl
    | _ => trivial

/-! ## Lines of a file -/

namespace Line

/-- A line that says nothing: it is blank, or a comment that is no tag. -/
inductive Quiet : Bytes → Prop where
  | blank {line : Bytes} (run : Blank.IsRun line) : Quiet line
  | comment (blanks content : Bytes) (run : Blank.IsRun blanks) (untagged : ¬ tagMark <+: commentMark :: content)
      (whole : 0x0A ∉ content) : Quiet (blanks ++ commentMark :: content)

theorem Quiet.whole {line : Bytes} (quiet : Quiet line) : 0x0A ∉ line := by
  cases quiet with
  | blank run => exact run.whole
  | comment blanks content run untagged whole => simp [run.whole, whole, commentMark]

theorem Quiet.nothing {line : Bytes} (quiet : Quiet line) : ofBytes (dropReturn line) = .nothing := by
  cases quiet with
  | blank run =>
    unfold ofBytes
    rw [run.dropReturn.trimStart]
  | comment blanks content run untagged whole =>
    obtain ⟨left, kept⟩ : ∃ left, dropReturn (commentMark :: content) = commentMark :: left := by
      by_cases bare : content = []
      · exact ⟨[], by rw [bare]; rfl⟩
      · exact ⟨_, dropReturn_append bare [commentMark]⟩
    -- Without the return the line is not longer, so it does not become a tag either.
    have untagged' : tagMark.isPrefixOf (commentMark :: left) = false := by
      refine Bool.eq_false_iff.mpr fun tagged => untagged ?_
      have cut := dropReturn_prefix (commentMark :: content)
      rw [kept] at cut
      exact (List.isPrefixOf_iff_prefix.mp tagged).trans cut
    unfold ofBytes
    rw [dropReturn_append (List.cons_ne_nil _ _), kept, Blank.trimStart_run run, Blank.trimStart_of_first]
    · dsimp only
      rw [untagged', if_neg Bool.false_ne_true, if_pos rfl]
    · rintro _ ⟨⟩
      rfl

/-- Lines tell some items one after another, with lines between them that say nothing. -/
inductive Tells {α : Type} (form : α → Bytes → Prop) : List α → List Bytes → Prop where
  | nil : Tells form [] []
  | quiet {items : List α} {line : Bytes} {lines : List Bytes} (quiet : Quiet line) (tells : Tells form items lines) :
      Tells form items (line :: lines)
  | item {item : α} {items : List α} {line : Bytes} {lines : List Bytes} (told : form item line)
      (tells : Tells form items lines) : Tells form (item :: items) (line :: lines)

namespace Tells

variable {α β : Type} {form : α → Bytes → Prop} {items : List α} {lines : List Bytes}

theorem whole (told : ∀ {item line}, form item line → 0x0A ∉ line) (tells : Tells form items lines) :
    ∀ line ∈ lines, 0x0A ∉ line := by
  induction tells with
  | nil => exact List.forall_mem_nil _
  | quiet quiet tells ih => exact List.forall_mem_cons.mpr ⟨quiet.whole, ih⟩
  | item line tells ih => exact List.forall_mem_cons.mpr ⟨told line, ih⟩

/-- What is left of lines without those that say nothing is what the items mean. -/
theorem heard (means : α → β → Prop) (read : β → Line)
    (told : ∀ {item line}, form item line →
      ∃ heard, means item heard ∧ read heard ≠ .nothing ∧ ofBytes (dropReturn line) = read heard)
    (tells : Tells form items lines) : ∃ heard : List β, List.Forall₂ means items heard ∧
      (lines.map fun line => ofBytes (dropReturn line)).filter (· ≠ .nothing) = heard.map read := by
  induction tells with
  | nil => exact ⟨[], .nil, rfl⟩
  | quiet quiet tells ih =>
    obtain ⟨heard, all, same⟩ := ih
    refine ⟨heard, all, ?_⟩
    rw [List.map_cons, quiet.nothing, ← same]
    rfl
  | item line tells ih =>
    obtain ⟨heard, all, same⟩ := ih
    obtain ⟨first, own, loud, found⟩ := told line
    refine ⟨first :: heard, .cons own all, ?_⟩
    rw [List.map_cons, found, List.filter_cons_of_pos (by simpa using loud), same, List.map_cons]

end Tells

def loud (numbered : List (Line × Nat)) : List (Line × Nat) := numbered.filter (·.1 ≠ .nothing)

theorem map_fst_loud (lines : List Line) (start : Nat) :
    (loud (lines.zipIdx start)).map Prod.fst = lines.filter (· ≠ .nothing) := by
  conv_rhs => rw [← List.zipIdx_map_fst start lines, List.filter_map]
  rfl

end Line

end MarketWire
