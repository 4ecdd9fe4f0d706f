import MarketWire.Calendar.Date
import MarketWire.Calendar.Time

/-! Dates with a time of day. -/

set_option autoImplicit false

namespace MarketWire

structure DateTime where
  date : Date
  time : Time
  deriving DecidableEq, Repr

namespace DateTime

def blank : DateTime := ⟨.blank, .blank⟩

def isBlank (value : DateTime) : Bool := value.date.isBlank && value.time.isBlank

def isValid (value : DateTime) : Bool := value.date.isValid && value.time.isValid

def toCivil? (value : DateTime) : Option (CivilDate × CivilTime) := do
  return (← value.date.toCivil?, ← value.time.toCivil?)

def ofCivil (date : CivilDate) (time : CivilTime) : DateTime := ⟨.ofCivil date, .ofCivil time⟩

def encode (value : DateTime) : Write Unit :=
  Write.bytes (value.date.bytes ++ value.time.bytes value.time.wireLength)

/-- No bytes are blank; a length without a form is told for the whole value. -/
def decode (payload : Bytes) : Except DecodeError DateTime :=
  if payload.isEmpty then .ok blank
  else if payload.length < Date.wireLength + 2 then .error (.incompleteData payload.length)
  else do
    let date ← Read.all Date.read payload
    match Read.all (Time.readFrom (payload.length - Date.wireLength))
        (payload.drop Date.wireLength) with
    | .ok time => return ⟨date, time⟩
    | .error _ => throw (.incompleteData payload.length)

def text (value : DateTime) : String := value.date.text ++ " " ++ value.time.text

end DateTime

end MarketWire
