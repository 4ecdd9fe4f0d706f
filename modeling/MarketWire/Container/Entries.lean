import MarketWire.EntryValue

/-! The entries of a container, one after another.

A step reads one entry from the unread bytes; it leaves the rest of them, or nothing when no entry
can follow. Where the entries have labels of their own, such as those of a set definition, the step
is told the label of the entry that it reads.
-/

set_option autoImplicit false

namespace MarketWire.Entries

variable {ε ℓ : Type}

def collect (step : ℓ → Bytes → ε × Option Bytes) : List ℓ → Bytes → List ε → List ε
  | [], _, found => found.reverse
  | label :: labels, unread, found =>
    match step label unread with
    | (entry, some unread) => collect step labels unread (entry :: found)
    | (entry, none) => (entry :: found).reverse

/-- An entry for each label, up to the first that no other can follow. -/
def readEach (step : ℓ → Bytes → ε × Option Bytes) (labels : List ℓ) (unread : Bytes) : List ε :=
  collect step labels unread []

/-- At most so many entries. -/
def read (step : Bytes → ε × Option Bytes) (count : Nat) (unread : Bytes) : List ε :=
  readEach (fun _ => step) (List.replicate count ()) unread

theorem collect_eq (step : ℓ → Bytes → ε × Option Bytes) (labels : List ℓ) (unread : Bytes)
    (found : List ε) :
    collect step labels unread found = found.reverse ++ readEach step labels unread := by
  induction labels generalizing unread found with
  | nil => simp [readEach, collect]
  | cons label labels ih =>
    rw [readEach, collect, collect]
    rcases step label unread with ⟨entry, rest⟩
    cases rest with
    | none => simp
    | some rest =>
      show collect step labels rest (entry :: found)
        = found.reverse ++ collect step labels rest [entry]
      rw [ih rest (entry :: found), ih rest [entry]]
      simp

@[simp] theorem readEach_nil (step : ℓ → Bytes → ε × Option Bytes) (unread : Bytes) :
    readEach step [] unread = [] := rfl

theorem readEach_cons (step : ℓ → Bytes → ε × Option Bytes) (label : ℓ) (labels : List ℓ)
    (unread : Bytes) :
    readEach step (label :: labels) unread =
      (step label unread).1 :: ((step label unread).2.elim [] (readEach step labels)) := by
  rw [readEach, collect]
  rcases step label unread with ⟨entry, rest⟩
  cases rest with
  | none => rfl
  | some rest => simp [collect_eq]

theorem read_succ (step : Bytes → ε × Option Bytes) (count : Nat) (unread : Bytes) :
    read step (count + 1) unread =
      (step unread).1 :: ((step unread).2.elim [] (read step count)) := by
  rw [read, List.replicate_succ, readEach_cons]
  rfl

end MarketWire.Entries
