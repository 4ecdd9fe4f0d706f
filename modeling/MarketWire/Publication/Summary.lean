import MarketWire.Publication.Element
import MarketWire.Publication.Edition
import MarketWire.Container.Series
import MarketWire.Dictionary.Kind
import MarketWire.Dictionary.Store

/-! The summary in the first part of a dictionary: an element list of what holds for all of it. -/

set_option autoImplicit false

namespace MarketWire.Summary

def kindName : String := "Type"

def idName : String := "DictionaryId"

def versionName : String := "Version"

def write (elements : List (String × Primitive)) : Write Unit := Drafting.whole do
  ElementList.start {}
  elements.forM fun (name, value) => ElementList.add {} name value
  ElementList.finish true

def kindElement (kind : DictionaryKind) : String × Primitive :=
  (kindName, .uint kind.code.toUInt64)

def idElement (id : Int32) : String × Primitive := (idName, .int id.toInt64)

def checkKind (kind : DictionaryKind) (element : ElementList.Entry) : Except DictionaryError Unit := do
  let found := Int64.ofInt (← Element.signed 64 element)
  if found ≠ kind.number then throw (.wrongDictionaryType kind.number found)

def id (element : ElementList.Entry) : Except DictionaryError Int32 :=
  (Element.signed 32 element).map Int32.ofInt

/-- The kind of dictionary that a part belongs to. Only a part with a summary tells. -/
def kindOf (part : Bytes) : Except DictionaryError DictionaryKind := do
  let series ← (Series.decode part).mapError .decode
  let missing : DictionaryError := .missingElement kindName
  let some summary := series.header.summary | throw missing
  let content ← (ElementList.decode {} summary).mapError .decode
  let some element := content.entries.find? (·.name == Bytes.ofString kindName) | throw missing
  let code ← Element.unsigned 64 element
  match DictionaryKind.ofCode? code with
  | some kind => return kind
  | none => throw (.decode (.invalidData ("unknown dictionary type " ++ toString code)))

/-- Do nothing or fail without a change. -/
def lift {α σ : Type} (result : Except DictionaryError α) : EStateM DictionaryError σ α :=
  match result with
  | .ok value => pure value
  | .error error => throw error

/-- Apply each element of the summary of a received table, if it has one. -/
def applyEach {σ : Type} (apply : ElementList.Entry → EStateM DictionaryError σ Unit)
    (header : Table.Header) : EStateM DictionaryError σ Unit := do
  match header.summary with
  | some summary => (← lift (Element.readable {} summary)).forM apply
  | none => pure ()

/-- Demand that the rows of a received table are element lists. -/
def checkRows {σ : Type} (header : Table.Header) : EStateM DictionaryError σ Unit := do
  if header.rowType ≠ .elementList then
    throw (.decode (.unsupportedType header.rowType.code))

/-- The context for the rows of a received table. -/
def rowContext {σ : Type} (header : Table.Header) : EStateM DictionaryError σ Context := do
  match header.elementSets with
  | some (.ok sets) => return { localElementSets := some sets }
  | some (.error error) => throw (.decode error)
  | none => return {}

end MarketWire.Summary
