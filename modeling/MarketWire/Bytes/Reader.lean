import MarketWire.Bytes
import MarketWire.Error

/-! Reading from the front of a byte string.

A reader consumes bytes from the front of the unread ones. A reader that fails leaves behind what
it had not consumed when it failed, so a fault within a value is at the place where it was found.
-/

set_option autoImplicit false

namespace MarketWire

/-- A reader over the bytes not yet read. -/
abbrev Read := EStateM DecodeError Bytes

namespace Read

/-- Run a reader on a byte string and drop what it leaves. -/
def all {α : Type} (reader : Read α) (bytes : Bytes) : Except DecodeError α :=
  match reader.run bytes with
  | .ok value _ => .ok value
  | .error error _ => .error error

/-- Answer or fail without reading. -/
def ofExcept {α : Type} (result : Except DecodeError α) : Read α :=
  match result with
  | .ok value => pure value
  | .error error => throw error

def bytes (count : Nat) : Read Bytes := fun unread =>
  let taken := unread.take count
  if taken.length = count then .ok taken (unread.drop count)
  else .error (.overrun count taken.length) unread

def rest : Read Bytes := fun unread => .ok unread []

def skip (count : Nat) : Read Unit := do
  let _ ← bytes count

def peek : Read UInt8
  | [] => .error (.overrun 1 0) []
  | unread@(byte :: _) => .ok byte unread

def byte : Read UInt8
  | [] => .error (.overrun 1 0) []
  | byte :: unread => .ok byte unread

def number (width : Nat) : Read Nat := do
  return (← bytes width).toNat

def uint16 : Read UInt16 := do return .ofNat (← number 2)

def int16 : Read Int16 := do return (← uint16).toInt16

def uint32 : Read UInt32 := do return .ofNat (← number 4)

def uint64 : Read UInt64 := do return .ofNat (← number 8)

/-- Read on only when a condition holds. -/
def when {α : Type} (condition : Bool) (reader : Read α) : Read (Option α) :=
  if condition then some <$> reader else pure none

/-- A value that is computed from what a reader takes leaves what the reader leaves. -/
theorem bind_ofExcept_eq_ok {α β : Type} {reader : Read α} {compute : α → Except DecodeError β}
    {bytes rest : Bytes} {value : β}
    (h : (do ofExcept (compute (← reader)) : Read β) bytes = .ok value rest) :
    ∃ taken, reader bytes = .ok taken rest := by
  simp only [bind, EStateM.bind] at h
  cases found : reader bytes with
  | error => rw [found] at h; cases h
  | ok taken left =>
    rw [found] at h
    change ofExcept (compute taken) left = .ok value rest at h
    cases computed : compute taken with
    | error => rw [computed] at h; cases h
    | ok => rw [computed] at h; cases h; exact ⟨taken, rfl⟩

theorem bytes_append {count : Nat} {taken : Bytes} (h : taken.length = count) (unread : Bytes) :
    bytes count (taken ++ unread) = .ok taken unread := by
  subst h
  simp [bytes]

theorem bytes_eq_ok {count : Nat} {unread taken left : Bytes}
    (h : bytes count unread = .ok taken left) : unread = taken ++ left ∧ taken.length = count := by
  simp only [bytes] at h
  split at h
  next enough =>
    cases h
    exact ⟨(List.take_append_drop count unread).symm, enough⟩
  next => cases h

theorem bytes_eq_error {count : Nat} {unread left : Bytes} {error : DecodeError}
    (h : bytes count unread = .error error left) :
    error = .overrun count unread.length ∧ left = unread ∧ unread.length < count := by
  simp only [bytes] at h
  split at h
  next => cases h
  next short =>
    have fewer : unread.length < count := by
      simp only [List.length_take] at short
      omega
    rw [List.take_of_length_le (Nat.le_of_lt fewer)] at h
    cases h
    exact ⟨rfl, rfl, fewer⟩

end Read

end MarketWire
