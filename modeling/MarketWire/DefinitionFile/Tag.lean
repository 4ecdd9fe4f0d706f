import MarketWire.Dictionary.Kind
import MarketWire.Dictionary.Store
import MarketWire.DefinitionFile.Line
import MarketWire.Text.Integer

/-! What the lines of both kinds of definition files have in common. -/

set_option autoImplicit false

namespace MarketWire.Dictionary

/-- Say in errors on which line they arose. -/
def onLine {σ α : Type} (line : Nat) (update : Store.Update σ α) : Store.Update σ α := fun state =>
  match update state with
  | .ok value state => .ok value state
  | .error error state => .error (error.onLine line) state

def scanLine {σ α : Type} (line : Nat) (scan : Scan α) (content : Bytes) : Store.Update σ α :=
  match scan content with
  | .ok value _ => pure value
  | .error reason _ => throw (.parse line reason)

/-- The number of so many bits that a tag gives. -/
def tagNumber {σ : Type} (line bits : Nat) (name value : String) : Store.Update σ Int :=
  match Integer.ofBits? bits (Blank.trim value.toList) with
  | some number => pure number
  | none => throw (.parse line ("invalid " ++ name ++ " " ++ quoted value))

/-- Apply a tag that both kinds of files may have: the type of the file, and the id of the
dictionary, which is adopted if told so. -/
def applyCommonTag {σ : Type} [Store σ] (line : Nat) (kind : DictionaryKind) (adopt : Bool) (name value : String) :
    Store.Update σ Unit := do
  match name with
  | "Type" =>
    let found := Int64.ofInt (← tagNumber line 64 name value)
    if found ≠ kind.number then
      onLine line (throw (.wrongDictionaryType kind.number found))
  | "DictionaryId" =>
    let id := Int32.ofInt (← tagNumber line 32 name value)
    onLine line (Store.checkId id adopt)
  | _ => pure ()

end MarketWire.Dictionary
