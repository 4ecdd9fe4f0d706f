import MarketWire.Container.ElementList
import MarketWire.Container.ItemArray
import MarketWire.Dictionary

/-! Elements of received rows and summaries, read as what they should hold.

An element that holds something else is refused with its name and type. Elements that could not be
read are passed over.
-/

set_option autoImplicit false

namespace MarketWire.Element

def readable (context : Context) (row : Bytes) : Except DictionaryError (List ElementList.Entry) :=
  match ElementList.decode context row with
  | .ok content => .ok (content.entries.filter fun element => !element.value.isMarker)
  | .error error => .error (.decode error)

/-- The name, or no text if the name is none. -/
def name (element : ElementList.Entry) : String :=
  (ElementList.nameText element).toOption.getD ""

def typeError (element : ElementList.Entry) : DictionaryError :=
  .elementType (String.ofList (Utf8.decodeLossy element.name)) element.type.code

def demand {α : Type} (element : ElementList.Entry) : Option α → Except DictionaryError α
  | some value => .ok value
  | none => .error (typeError element)

def value (element : ElementList.Entry) : Except DictionaryError Primitive :=
  demand element element.value.primitive?

/-- The integer that a value holds, if it is at least as large as one bound and below another. -/
def integer? (low high : Int) (value : Primitive) : Option Int :=
  (value.toInt64.toOption.map (·.toInt)).filter fun n => low ≤ n && n < high

/-- An integer of so many bits in two's complement. -/
def signed? (bits : Nat) (value : Primitive) : Option Int :=
  integer? (-Nat.pow 2 (bits - 1)) (Nat.pow 2 (bits - 1)) value

/-- A natural number of so many bits. -/
def unsigned? (bits : Nat) (value : Primitive) : Option Nat :=
  (integer? 0 (Nat.pow 2 bits) value).map Int.toNat

def signed (bits : Nat) (element : ElementList.Entry) : Except DictionaryError Int := do
  demand element (signed? bits (← value element))

def unsigned (bits : Nat) (element : ElementList.Entry) : Except DictionaryError Nat := do
  demand element (unsigned? bits (← value element))

/-- The bytes of a value; those of a blank are none. -/
def content? (value : Primitive) : Option Bytes :=
  match value with
  | .blank _ => some []
  | value => value.content?

/-- The text of a byte string, with a replacement for bytes that are none. -/
def textOf (content : Bytes) : String := String.ofList (Utf8.decodeLossy content)

def text (element : ElementList.Entry) : Except DictionaryError String := do
  return textOf (← demand element (content? (← value element)))

/-- The items of an array, all of which must be readable; a blank array has none. -/
def items (element : ElementList.Entry) : Except DictionaryError (List Primitive) := do
  match ← value element with
  | .bytes .array content =>
    let array ← (ItemArray.decode content).mapError .decode
    array.items.mapM fun item => item.mapError .decode
  | .blank .array => return []
  | _ => throw (typeError element)

/-- What the items of an array hold, each of which must be as expected. -/
def itemsAs {α : Type} (hold : Primitive → Option α) (element : ElementList.Entry) :
    Except DictionaryError (List α) := do
  (← items element).mapM fun item => demand element (hold item)

end MarketWire.Element
