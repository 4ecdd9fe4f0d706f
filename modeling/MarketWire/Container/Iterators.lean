import MarketWire.Container.Record.Reading

/-! Entries that are asked for one after another.

An iterator reads an entry each time it is asked, and remembers how many of them may follow and where
the next one starts. After an entry that no other can follow it gives nothing. That of a record gives the
set-defined entries before the standard ones.
-/

set_option autoImplicit false

namespace MarketWire

namespace Entries

/-- How many entries may follow, and where the next one starts. -/
structure Iterator where
  left : Nat
  unread : Option Bytes
  deriving DecidableEq, Repr

def Iterator.next {ε : Type} (step : Bytes → ε × Option Bytes) : Iterator → Option ε × Iterator
  | ⟨left + 1, some unread⟩ =>
    let (entry, unread) := step unread
    (some entry, ⟨left, unread⟩)
  | iterator => (none, iterator)

/-- The answer to the call that follows so many others. -/
def answer {σ ε : Type} (next : σ → Option ε × σ) : Nat → σ → Option ε
  | 0, state => (next state).1
  | calls + 1, state => answer next calls (next state).2

end Entries

namespace Record

/-- The id of the set definition until its entries have come to an end, how many of them were read, and
what stands behind them. -/
structure Iterator where
  setId : Option UInt16
  setIndex : Nat
  setData : Bytes
  standard : Entries.Iterator
  deriving DecidableEq, Repr

variable {κ Info Name : Type} [format : RecordFormat κ Info Name]

variable (κ) in
def Iterator.nextSet (context : Context) (iterator : Iterator) : Option (Entry Name) × Iterator :=
  let ended := { iterator with setId := none, setData := [] }
  match iterator.setId with
  | none => (none, iterator)
  | some setId =>
    match format.findSet context setId with
    | none => (some (.ofFault format.noName .noSetDefinition iterator.setData), ended)
    | some definition =>
      match definition.entries[iterator.setIndex]? with
      | none => (none, { iterator with setId := none })
      | some expected =>
        match setStep expected iterator.setData with
        | (entry, some setData) => (some entry, { iterator with setIndex := iterator.setIndex + 1, setData })
        | (entry, none) => (some entry, ended)

variable (κ) in
def Iterator.next (context : Context) (iterator : Iterator) : Option (Entry Name) × Iterator :=
  match nextSet κ context iterator with
  | (some entry, iterator) => (some entry, iterator)
  | (none, iterator) =>
    let (entry, standard) := iterator.standard.next (step κ context)
    (entry, { iterator with standard })

end Record

end MarketWire
