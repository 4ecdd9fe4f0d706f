import MarketWire.Publication.Fields
import MarketWire.Publication.Enums
import MarketWire.Publication.SetDefinitions

/-! Publications: dictionaries on their way, one part after another. -/

set_option autoImplicit false

namespace MarketWire

/-- A dictionary that is being sent: how a part that starts at a cursor is written into so many
bytes, the most rows that there can be, the cursor of the next part, and whether all has been sent. -/
structure Publication where
  encode : Int32 → Nat → Except DictionaryError Part
  rowCount : Nat
  cursor : Int32 := 0
  isDone : Bool := false

namespace Publication

/-- The size of parts when none is chosen. -/
def defaultPartSize : Nat := 12800

def ofEdition {α : Type} (edition : Edition α) : Publication where
  encode := edition.encodePart
  rowCount := edition.rows.length
  cursor := edition.first

/-- Send the definitions of fields or the tables of enumerated values; a dictionary has nothing else
to send. -/
def ofDictionary (dictionary : Dictionary) (kind : DictionaryKind) (verbosity : Verbosity) :
    Publication :=
  match kind with
  | .fields => ofEdition (dictionary.fieldEdition verbosity)
  | .enums => ofEdition (dictionary.enumEdition verbosity)
  | .fieldSets | .elementSets =>
    { encode := fun _ _ => .error (.wrongDictionaryType DictionaryKind.fields.number kind.number)
      rowCount := 0 }

/-- Send global set definitions. -/
def ofSets {κ : Type} [PublishedKey κ] (sets : GlobalSets κ) (verbosity : Verbosity) :
    Publication :=
  ofEdition (sets.edition verbosity)

/-- Write the next part into so many bytes. Nothing follows the last part or an error. -/
def next (publication : Publication) (capacity : Nat) :
    Option (Except DictionaryError Part) × Publication :=
  if publication.isDone then (none, publication)
  else match publication.encode publication.cursor capacity with
    | .error error => (some (.error error), { publication with isDone := true })
    | .ok part => match part.next? with
      | some cursor => (some (.ok part), { publication with cursor })
      | none => (some (.ok part), { publication with isDone := true })

def run (publication : Publication) : List Nat → List (Except DictionaryError Part) × Publication
  | [] => ([], publication)
  | capacity :: rest =>
    match publication.next capacity with
    | (none, publication) => ([], publication)
    | (some result, publication) =>
      let (results, publication) := publication.run rest
      (result :: results, publication)

/-- Write all parts of one size. Every part but the last has a row, which bounds their number. -/
def parts (publication : Publication) (size : Nat) : List (Except DictionaryError Part) :=
  (publication.run (List.replicate (publication.rowCount + 1) size)).1

end Publication

end MarketWire
