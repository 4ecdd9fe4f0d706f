import MarketWire.Container.Table
import MarketWire.Publication.Column

/-! Parts: dictionaries travel in one message or in several.

A part starts at a cursor and has as many of the rows from there on as there is room for. A row that
does not fit starts the next part, unless it is the first of its part.
-/

set_option autoImplicit false

namespace MarketWire

/-- A part: the cursor at which it starts, its bytes, and the cursor of the first row that it leaves
over. -/
structure Part where
  cursor : Int32
  bytes : Bytes
  next? : Option Int32
  deriving DecidableEq, Repr

/-- A row of a table: its cursor, how it is opened and what is written into it. -/
structure Part.Row where
  cursor : Int32
  opening : Table.Plan → Drafting Unit
  content : Write Unit

namespace Part

/-- A part ends the dictionary when it leaves no row over. -/
def isLast (part : Part) : Bool := part.next?.isNone

/-- Add a row, or leave the table as it was. -/
def addRow (plan : Table.Plan) (row : Row) : Drafting Unit := do
  row.opening plan
  tryCatch (Drafting.write row.content) fun error => do
    Table.closeEntry false
    throw error
  Table.closeEntry true

abbrev Publishing := EStateM DictionaryError Draft

def draft {α : Type} (step : Drafting α) : Publishing α := fun draft =>
  match step draft with
  | .ok value draft => .ok value draft
  | .error error draft => .error (.encode error) draft

/-- Add rows while there is room, and answer the cursor of the first that is left over. -/
def addRows (plan : Table.Plan) : List Row → Publishing (Option Int32)
  | [] => pure none
  | row :: rest => fun draft =>
    match addRow plan row draft with
    | .ok _ draft => addRows plan rest draft
    | .error (.bufferTooSmall ..) draft =>
      if draft.session.count = 0 then .error (.itemTooLarge row.cursor) draft
      else .ok (some row.cursor) draft
    | .error error draft => .error (.encode error) draft

/-- Write a table with a summary, if its plan has one, and rows. -/
def publish (plan : Table.Plan) (summary : Write Unit) (rows : List Row) :
    Publishing (Option Int32) := do
  draft (Table.start plan)
  if plan.summary then
    draft (Drafting.write summary)
    draft (Table.closeSummary plan true)
  let next? ← addRows plan rows
  draft (Table.finish true)
  return next?

def encode (cursor : Int32) (capacity : Nat) (plan : Table.Plan) (summary : Write Unit) (rows : List Row) :
    Except DictionaryError Part :=
  match publish plan summary rows ⟨{}, .empty capacity⟩ with
  | .ok next? draft => .ok ⟨cursor, draft.output.toList, next?⟩
  | .error error _ => .error error

end Part

end MarketWire
