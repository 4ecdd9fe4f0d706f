import MarketWire.Container.ElementList
import MarketWire.Container.ItemArray

/-! The columns of the rows in which dictionaries travel.

A row is an element list whose elements all follow one set definition, with an element for each
column.
-/

set_option autoImplicit false

namespace MarketWire

/-- The content of a row in a column. -/
inductive Cell where
  | value (value : Primitive)
  | items (plan : ItemArray.Plan) (items : List Primitive)
  deriving DecidableEq, Repr

/-- A column of rows that show values of a type. -/
structure Column (α : Type) where
  name : String
  type : DataType
  cell : α → Cell

namespace Column

variable {α : Type}

/-- The set definition that the rows follow. -/
def definition (columns : List (Column α)) : SetDefinition String :=
  ⟨0, (columns.map fun column => ⟨column.name, column.type⟩).toArray⟩

def plan (columns : List (Column α)) : ElementList.Plan :=
  { definition := some (definition columns), standard := false }

/-- Room for the set definition of the rows. -/
def definitionRoom : Nat := 128

/-- The set definition of the rows as the header of a table carries it. -/
def encodedDefinition (columns : List (Column α)) : Except EncodeError Bytes :=
  Write.toBytes definitionRoom (LocalSets.encode ⟨[definition columns]⟩)

/-- The value of a cell; an array must fit into the room that is left. -/
def cellValue (room : Nat) : Cell → Except EncodeError Primitive
  | .value value => .ok value
  | .items plan items => (Write.toBytes room (ItemArray.encode plan items)).map (.bytes .array ·)

def addCell (rowPlan : ElementList.Plan) (value : α) (column : Column α) : Drafting Unit := do
  match cellValue (← Drafting.write Write.room) (column.cell value) with
  | .ok value => ElementList.add rowPlan column.name value
  | .error error => throw error

def writeRow (columns : List (Column α)) (value : α) : Write Unit :=
  let rowPlan := plan columns
  Drafting.whole do
    ElementList.start rowPlan
    columns.forM (addCell rowPlan value)
    ElementList.finish true

end Column

end MarketWire
