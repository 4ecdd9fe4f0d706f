import MarketWire.Bytes.Framed

/-! Writing a container step by step.

A session remembers how far the writing has got; a draft is a session with the output that it
writes to. A step that fails undoes what it wrote, and a container that is not committed leaves the
output as it was before its header.
-/

set_option autoImplicit false

namespace MarketWire

/-- How far the writing of a container has got. -/
inductive Phase where
  | idle
  | summary (slot : Option LengthSlot)
  | setData (written : Nat) (slot : Option LengthSlot)
  | entries
  | entry (start : Nat) (slot : Option LengthSlot)
  | done
  deriving DecidableEq, Repr

/-- The position of the header, the position of the number of entries and that number so far. -/
structure Session where
  phase : Phase := .idle
  start : Nat := 0
  countAt : Option Nat := none
  count : Nat := 0
  deriving DecidableEq, Repr

structure Draft where
  session : Session
  output : Output

/-- A step of the writing of a container. -/
abbrev Drafting := EStateM EncodeError Draft

/-- What a container calls its steps when one of them is out of order. -/
structure Wording where
  started : String
  notAccepting : String
  noOpenEntry : String
  unfinished : String
  notStarted : String

namespace Drafting

def session : Drafting Session := fun draft => .ok draft.session draft

def update (change : Session → Session) : Drafting Unit := fun draft =>
  match draft with
  | ⟨session, output⟩ => .ok () ⟨change session, output⟩

def enter (phase : Phase) : Drafting Unit := update ({ · with phase })

def write {α : Type} (writer : Write α) : Drafting α := fun draft =>
  match draft with
  | ⟨session, output⟩ =>
    match writer output with
    | .ok value output => .ok value ⟨session, output⟩
    | .error error output => .error error ⟨session, output⟩

/-- Write a whole container with a session of its own. -/
def whole {α : Type} (steps : Drafting α) : Write α := fun output =>
  match steps ⟨{}, output⟩ with
  | .ok value draft => .ok value draft.output
  | .error error draft => .error error draft.output

def refuse {α : Type} (reason : String) : Drafting α := throw (.invalidState reason)

def requireIdle (wording : Wording) : Drafting Unit := do
  if (← session).phase ≠ .idle then refuse wording.started

def requireEntries (wording : Wording) : Drafting Unit := do
  if (← session).phase ≠ .entries then refuse wording.notAccepting

def requireCount (most : Nat) : Drafting Unit := do
  if (← session).count = most then throw (.lengthOverflow (most + 1) most)

def countEntry : Drafting Unit := update fun session => { session with count := session.count + 1 }

/-- Add an entry that a writer writes as a whole. -/
def addEntry (writer : Write Unit) : Drafting Unit := do
  write (Write.atomic writer)
  countEntry

/-- Open an entry whose payload is written afterwards; the writer writes all before the payload and
keeps room for the length of the payload, if there is one. -/
def openEntry (writer : Write (Option LengthSlot)) : Drafting Unit := do
  let start ← write Write.position
  let slot ← write (Write.atomic writer)
  enter (.entry start slot)

/-- Close the open entry, which is dropped when it is not committed or too long. -/
def closeEntry (wording : Wording) (commit : Bool) : Drafting Unit := do
  match (← session).phase with
  | .entry start slot =>
    enter .entries
    if commit then
      match slot with
      | some slot => write (Write.atomicFrom start slot.close)
      | none => pure ()
      countEntry
    else write (Write.rewind start)
  | _ => refuse wording.noOpenEntry

/-- End the container: fill in the number of entries, or undo all of it. -/
def finish (wording : Wording) (countWidth : Nat) (commit : Bool) : Drafting Unit := do
  let session ← session
  match session.phase, commit with
  | .idle, _ | .done, _ => refuse wording.notStarted
  | _, false =>
    write (Write.rewind session.start)
    enter .done
  | .entries, true =>
    match session.countAt with
    | some position => write (Write.patchNumber position countWidth session.count)
    | none => pure ()
    enter .done
  | _, true => refuse wording.unfinished

end Drafting

end MarketWire
