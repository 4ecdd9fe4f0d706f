import MarketWire.Dictionary

/-! What definitions and tables are added to.

Files and parts are taken in alike, however definitions and tables are kept. An update that fails leaves the changes
that it made before; a transaction takes them back.
-/

set_option autoImplicit false

namespace MarketWire

/-- What is done to a store of definitions and tables. -/
class Store (σ : Type) where
  addField : FieldDefinition → EStateM DictionaryError σ Unit
  addTable : List (Int16 × String) → List (UInt16 × EnumLabel) → EStateM DictionaryError σ Unit
  checkId : Int32 → Bool → EStateM DictionaryError σ Unit
  setFieldTags : (FieldTags → FieldTags) → EStateM DictionaryError σ Unit
  setEnumTags : (EnumTags → EnumTags) → EStateM DictionaryError σ Unit
  resolveRipples : List (Int16 × String) → σ → σ
  withNames : σ → Bool → σ
  clear : σ → σ

abbrev Store.Update (σ : Type) := EStateM DictionaryError σ

instance : Store Dictionary where
  addField := Dictionary.addField
  addTable := Dictionary.addTable
  checkId := Dictionary.checkId
  setFieldTags := Dictionary.setFieldTags
  setEnumTags := Dictionary.setEnumTags
  resolveRipples := Dictionary.resolveRipples
  withNames := Dictionary.withNames
  clear := Dictionary.clear

/-- Take back all changes of an update that fails. -/
def Dictionary.transaction {σ α : Type} (update : Store.Update σ α) : Store.Update σ α := fun state =>
  match update state with
  | .ok value changed => .ok value changed
  | .error error _ => .error error state

end MarketWire
