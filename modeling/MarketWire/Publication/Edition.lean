import MarketWire.Publication.Part

/-! Editions: all that there is to send of a dictionary, before it is cut into parts.

Every part is a table with the same columns. The part at the first cursor also has a summary, and a
hint how many rows there are in all.
-/

set_option autoImplicit false

namespace MarketWire

/-- The rows of what is sent, in ascending order of their cursors, and what is written around them;
an edition without rows is a summary alone. -/
structure Edition (α : Type) where
  columns : List (Column α)
  hasRows : Bool
  first : Int32
  count? : Option Nat
  summary : Write Unit
  rows : List Part.Row

namespace Edition

variable {α : Type} (edition : Edition α)

/-- The plan of the part at a cursor. Without rows the definition of the columns is left out. -/
def plan (cursor : Int32) : Except DictionaryError Table.Plan := do
  let definition ← (Column.encodedDefinition edition.columns).mapError .encode
  let isFirst : Bool := cursor ≤ edition.first
  return {
    rowType := .elementList
    setDefinitions := if edition.hasRows then some definition else none
    summary := isFirst
    countHint :=
      if isFirst then edition.count?.map fun count => .ofNat (min count 0xFFFFFFFF) else none }

def rowsFrom (cursor : Int32) : List Part.Row :=
  if edition.hasRows then edition.rows.dropWhile (·.cursor < cursor) else []

theorem dropWhile_eq_filter {rows : List Part.Row} (cursor : Int32)
    (ascending : rows.Pairwise (·.cursor ≤ ·.cursor)) :
    rows.dropWhile (·.cursor < cursor) = rows.filter (cursor ≤ ·.cursor) := by
  induction rows with
  | nil => rfl
  | cons row rest ih =>
    obtain ⟨least, ascending⟩ := List.pairwise_cons.mp ascending
    by_cases before : row.cursor < cursor
    · rw [List.dropWhile_cons_of_pos (by simpa using before), ih ascending,
        List.filter_cons_of_neg (by simpa using before)]
    · have reached : cursor ≤ row.cursor := Int32.not_lt.mp before
      rw [List.dropWhile_cons_of_neg (by simpa using reached),
        List.filter_cons_of_pos (by simpa using reached)]
      refine congrArg _ (List.filter_eq_self.mpr fun other member => ?_).symm
      simpa using Int32.le_trans reached (least other member)

def encodePart (cursor : Int32) (capacity : Nat) : Except DictionaryError Part := do
  let plan ← edition.plan cursor
  Part.encode cursor capacity plan edition.summary (edition.rowsFrom cursor)

end Edition

end MarketWire
