import MarketWire.Text.Blank
import MarketWire.Text.Utf8

/-! Words on a line of a definition file, and the lines themselves.

A line that starts with an exclamation mark is a comment unless it is a tag: a word and a text
behind the word `!tag`. Blank lines and comments say nothing.
-/

set_option autoImplicit false

namespace MarketWire

/-- A scanner takes words from the front of a line. Its errors are reasons. -/
abbrev Scan := EStateM String Bytes

namespace Scan

def openParenthesis : UInt8 := 0x28

def closeParenthesis : UInt8 := 0x29

def quote : UInt8 := 0x22

def hash : UInt8 := 0x23

/-- A word ends at a blank or at a parenthesis. -/
def isWordByte (byte : UInt8) : Bool :=
  !Blank.isBlankByte byte && byte != openParenthesis && byte != closeParenthesis

/-- The byte behind the blanks. -/
def peek? : Scan (Option UInt8) := fun line =>
  let unread := Blank.trimStart line
  .ok unread.head? unread

/-- Take the byte behind the blanks if it is the expected one. -/
def take (expected : UInt8) : Scan Bool := fun line =>
  match Blank.trimStart line with
  | [] => .ok false []
  | byte :: rest => if byte = expected then .ok true rest else .ok false (byte :: rest)

/-- The word behind the blanks; bytes that are no text are no word. -/
def word? : Scan (Option String) := fun line =>
  let unread := Blank.trimStart line
  let word := unread.takeWhile isWordByte
  let text := if word.isEmpty then none else (Utf8.decode word).toOption
  .ok text (unread.dropWhile isWordByte)

/-- The bytes between two marks, the first of which stands behind the blanks. -/
def delimited? (mark : UInt8) : Scan (Option Bytes) := fun line =>
  match Blank.trimStart line with
  | [] => .ok none []
  | first :: rest =>
    if first = mark ∧ mark ∈ rest then
      .ok (some (rest.takeWhile (· ≠ mark))) ((rest.dropWhile (· ≠ mark)).drop 1)
    else .ok none (first :: rest)

/-- All that is left, without the blanks around it. -/
def rest : Scan Bytes := fun line => .ok (Blank.trimEnd (Blank.trimStart line)) []

/-- Fail unless there is a value. -/
def demand {α : Type} (reason : String) : Option α → Scan α
  | some value => pure value
  | none => throw reason

def word (reason : String) : Scan String := do demand reason (← word?)

end Scan

inductive Line where
  | nothing
  | tag (name value : String)
  | words (content : Bytes)
  deriving DecidableEq, Repr

namespace Line

def commentMark : UInt8 := 0x21

def tagMark : Bytes := Bytes.ofString "!tag"

def scanTag : Scan (Option (String × String)) := do
  let name ← Scan.word?
  let value := Utf8.decode (← Scan.rest)
  return do return (← name, ← value.toOption)

/-- A tag that is no text counts as a comment. -/
def ofBytes (line : Bytes) : Line :=
  match Blank.trimStart line with
  | [] => .nothing
  | content@(first :: _) =>
    if tagMark.isPrefixOf content then
      match scanTag (content.drop tagMark.length) with
      | .ok (some (name, value)) _ => .tag name value
      | _ => .nothing
    else if first = commentMark then .nothing
    else .words content

/-- Cut a text behind each line feed; nothing behind the last one is no line. -/
def cut (line : Bytes) (found : List Bytes) : Bytes → List Bytes
  | [] => (if line.isEmpty then found else line.reverse :: found).reverse
  | byte :: rest =>
    if byte = 0x0A then cut [] (line.reverse :: found) rest else cut (byte :: line) found rest

/-- Drop a carriage return at the end. -/
def dropReturn (line : Bytes) : Bytes :=
  if line.getLast? = some 0x0D then line.dropLast else line

/-- The lines of a text, numbered from one. -/
def ofText (text : Bytes) : List (Line × Nat) :=
  ((cut [] [] text).map fun line => ofBytes (dropReturn line)).zipIdx 1

end Line

end MarketWire
