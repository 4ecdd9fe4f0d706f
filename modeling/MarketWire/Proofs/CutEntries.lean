import MarketWire.Container.Entries
import MarketWire.Proofs.Delimited

/-! Entries that are cut off.

Of bytes that hold entries and have been cut off somewhere, the entries are read that were left whole. In
place of the first one that was not, a failure is found, and nothing after it.
-/

set_option autoImplicit false

namespace MarketWire.Entries

variable {ε : Type}

structure Piece (ε : Type) where
  entry : ε
  bytes : Bytes

/-- The bytes begin with certain entries, one after another, as a reader of one entry finds them. -/
def Framed (frame : Read ε) : List (Piece ε) → Bytes → Prop
  | [], _ => True
  | piece :: pieces, bytes =>
    ∃ rest, frame bytes = .ok piece.entry rest ∧ bytes = piece.bytes ++ rest ∧ Framed frame pieces rest

def within : Nat → List (Piece ε) → List (Piece ε)
  | _, [] => []
  | room, piece :: pieces =>
    if piece.bytes.length ≤ room then piece :: within (room - piece.bytes.length) pieces else []

def upTo (ends : ε → Bool) : List ε → List ε
  | [] => []
  | entry :: entries => if ends entry then [entry] else entry :: upTo ends entries

/-- A step reads the entries of a delimited reader, of which some are the last ones, and answers a failure
that is the last entry where there are too few bytes for one. -/
structure Steps (step : Bytes → ε × Option Bytes) (frame : Read ε) (ends : ε → Bool)
    (fails : Bytes → ε → Prop) : Prop where
  delimited : frame.Delimited
  reads : ∀ {bytes entry rest}, frame bytes = .ok entry rest →
    step bytes = (entry, if ends entry then none else some rest)
  overruns : ∀ {bytes}, frame.Overruns bytes → ∃ failure, step bytes = (failure, none) ∧ fails bytes failure

/-- What is found in bytes that hold the entries within the first so many bytes and part of the next one:
these entries up to the one that is the last, if one of them is, otherwise all of them and a failure in place
of what was cut off. -/
structure CutOff (ends : ε → Bool) (fails : Bytes → ε → Prop) (pieces : List (Piece ε)) (room : Nat)
    (bytes : Bytes) (found : List ε) : Prop where
  ended : (∃ piece ∈ within room pieces, ends piece.entry) →
    found = upTo ends ((within room pieces).map (·.entry))
  whole : (∀ piece ∈ within room pieces, ends piece.entry = false) →
    (within room pieces).length = pieces.length → found = (within room pieces).map (·.entry)
  failed : (∀ piece ∈ within room pieces, ends piece.entry = false) →
    (within room pieces).length < pieces.length →
      ∃ failure raw, found = (within room pieces).map (·.entry) ++ [failure] ∧
        bytes = (within room pieces).flatMap (·.bytes) ++ raw ∧ fails raw failure

section
variable {ends : ε → Bool} {fails : Bytes → ε → Prop} {piece : Piece ε} {pieces : List (Piece ε)} {room : Nat}

theorem within_cons : within (piece.bytes.length + room) (piece :: pieces) = piece :: within room pieces := by
  rw [within, if_pos (Nat.le_add_right _ _), Nat.add_sub_cancel_left]

theorem CutOff.cons (goesOn : ends piece.entry = false) {rest : Bytes} {found : List ε}
    (cut : CutOff ends fails pieces room rest found) :
    CutOff ends fails (piece :: pieces) (piece.bytes.length + room) (piece.bytes ++ rest)
      (piece.entry :: found) := by
  constructor <;> rw [within_cons]
  · rintro ⟨other, inside, last⟩
    rw [List.map_cons, upTo, goesOn, if_neg Bool.false_ne_true]
    refine congrArg _ (cut.ended ?_)
    rcases List.mem_cons.mp inside with rfl | inside
    · exact absurd (goesOn.symm.trans last) Bool.false_ne_true
    · exact ⟨other, inside, last⟩
  · intro goOn all
    rw [List.map_cons, cut.whole (List.forall_mem_cons.mp goOn).2 (Nat.succ.inj all)]
  · intro goOn fewer
    obtain ⟨failure, raw, rfl, rfl, fault⟩ :=
      cut.failed (List.forall_mem_cons.mp goOn).2 (Nat.lt_of_succ_lt_succ fewer)
    exact ⟨failure, raw, rfl, by rw [List.flatMap_cons, List.append_assoc], fault⟩

theorem CutOff.last (last : ends piece.entry) (bytes : Bytes) :
    CutOff ends fails (piece :: pieces) (piece.bytes.length + room) bytes [piece.entry] := by
  have noOther (goOn : ∀ other ∈ piece :: within room pieces, ends other.entry = false) : False :=
    absurd ((List.forall_mem_cons.mp goOn).1.symm.trans last) Bool.false_ne_true
  constructor <;> rw [within_cons]
  · rw [List.map_cons, upTo, if_pos last]
    exact fun _ => rfl
  · exact fun goOn => (noOther goOn).elim
  · exact fun goOn => (noOther goOn).elim

theorem CutOff.failure (cut : room < piece.bytes.length) {bytes : Bytes} {failure : ε}
    (fault : fails bytes failure) : CutOff ends fails (piece :: pieces) room bytes [failure] := by
  have none : within room (piece :: pieces) = [] := if_neg (Nat.not_le_of_lt cut)
  constructor <;> rw [none]
  · rintro ⟨_, inside, -⟩
    cases inside
  · intro _ same
    cases same
  · intro _ _
    exact ⟨failure, bytes, rfl, rfl, fault⟩

end

theorem Steps.read_take {step : Bytes → ε × Option Bytes} {frame : Read ε} {ends : ε → Bool}
    {fails : Bytes → ε → Prop} (steps : Steps step frame ends fails) {pieces : List (Piece ε)} {bytes : Bytes}
    (framed : Framed frame pieces bytes) (room : Nat) :
    CutOff ends fails pieces room (bytes.take room) (read step pieces.length (bytes.take room)) := by
  induction pieces generalizing bytes room with
  | nil => exact ⟨fun _ => rfl, fun _ _ => rfl, fun _ fewer => absurd fewer (Nat.lt_irrefl 0)⟩
  | cons piece pieces ih =>
    obtain ⟨rest, reads, rfl, others⟩ := framed
    obtain ⟨taken, joined, delimits⟩ := steps.delimited.delimits reads
    obtain rfl : piece.bytes = taken := List.append_cancel_right joined
    rw [List.length_cons, read_succ]
    by_cases fits : piece.bytes.length ≤ room
    · obtain ⟨more, rfl⟩ := Nat.exists_eq_add_of_le fits
      rw [List.take_length_add_append, steps.reads (delimits.front _)]
      cases last : ends piece.entry with
      | true => exact .last last _
      | false => exact .cons last (ih others more)
    · have short := Nat.lt_of_not_le fits
      rw [List.take_append_of_le_length (Nat.le_of_lt short)]
      obtain ⟨failure, read, fault⟩ := steps.overruns (delimits.cut room short)
      rw [read]
      exact .failure short fault

end MarketWire.Entries
