import MarketWire.Container.Iterators
import MarketWire.Proofs.EntryReaders

/-! What iterators give, call after call: the entries that are read all at once, and then nothing. -/

set_option autoImplicit false

namespace MarketWire

namespace Entries

section
variable {σ ε : Type} {next : σ → Option ε × σ} {state after : σ} {entry : ε} {entries : List ε}

/-- One call after another gives certain entries, and all further calls give nothing. -/
def Yields (next : σ → Option ε × σ) (state : σ) (entries : List ε) : Prop :=
  ∀ calls, answer next calls state = entries[calls]?

theorem Yields.cons (behind : Yields next after entries) (gives : next state = (some entry, after)) :
    Yields next state (entry :: entries) := by
  intro calls
  cases calls with
  | zero => rw [answer, gives, List.getElem?_cons_zero]
  | succ calls => rw [answer, gives, behind, List.getElem?_cons_succ]

theorem Yields.nil (done : next state = (none, state)) : Yields next state [] := by
  intro calls
  induction calls with
  | zero => rw [answer, done, List.getElem?_nil]
  | succ calls ih =>
    rw [answer, done, ih]
    rfl

theorem Yields.behind (yields : Yields next state entries) : Yields next (next state).2 entries.tail := by
  intro calls
  rw [List.getElem?_tail, ← yields (calls + 1), answer]

end

theorem iterator_yields {ε : Type} (step : Bytes → ε × Option Bytes) (count : Nat) (unread : Bytes) :
    Yields (Iterator.next step) ⟨count, some unread⟩ (read step count unread) := by
  induction count generalizing unread with
  | zero => exact .nil rfl
  | succ count ih =>
    rw [read_succ]
    refine Yields.cons ?_ rfl
    cases (step unread).2 with
    | none => cases count <;> exact .nil rfl
    | some rest => exact ih rest

end Entries

open Entries (Yields)

namespace Record

variable {κ Info Name : Type} [format : RecordFormat κ Info Name] {context : Context}

/-! ## Set-defined entries -/

section
variable {definition : SetDefinition κ} {setId : UInt16}

theorem nextSet_ended (setIndex : Nat) (setData : Bytes) (standard : Entries.Iterator) :
    Yields (Iterator.nextSet κ context) ⟨none, setIndex, setData, standard⟩ [] :=
  .nil rfl

theorem nextSet_yields (known : format.findSet context setId = some definition) {labels : List (SetEntry κ)}
    {setIndex : Nat} (left : definition.entries.toList.drop setIndex = labels) (setData : Bytes)
    (standard : Entries.Iterator) :
    Yields (Iterator.nextSet κ context) ⟨some setId, setIndex, setData, standard⟩
      (Entries.readEach setStep labels setData) := by
  have found : definition.entries[setIndex]? = labels.head? := by
    rw [← left, List.head?_drop, Array.getElem?_toList]
  induction labels generalizing setIndex setData with
  | nil =>
    intro calls
    cases calls with
    | zero => simp [Entries.answer, Iterator.nextSet, known, found]
    | succ calls =>
      have ended : Yields (Iterator.nextSet κ context) ⟨none, setIndex, setData, standard⟩ [] :=
        nextSet_ended setIndex setData standard
      refine Eq.trans ?_ (ended calls)
      simp [Entries.answer, Iterator.nextSet, known, found]
  | cons expected labels ih =>
    rw [Entries.readEach_cons]
    have rest : definition.entries.toList.drop (setIndex + 1) = labels := by
      rw [← List.drop_drop, left]
      rfl
    cases read : setStep expected setData with
    | mk entry unread? =>
    cases unread? with
    | none =>
      have ended : Yields (Iterator.nextSet κ context) ⟨none, setIndex, [], standard⟩ [] :=
        nextSet_ended setIndex [] standard
      refine ended.cons ?_
      simp [Iterator.nextSet, known, found, read]
    | some unread =>
      refine (ih rest unread ?_).cons ?_
      · rw [← rest, List.head?_drop, Array.getElem?_toList]
      · simp [Iterator.nextSet, known, found, read]

end

def Head.iterator (head : Head Info) (unread : Bytes) : Iterator where
  setId := head.setBlock?.map Prod.fst
  setIndex := 0
  setData := (head.setBlock?.map Prod.snd).getD []
  standard := ⟨head.count, some unread⟩

theorem setEntries_yields (head : Head Info) (unread : Bytes) :
    Yields (Iterator.nextSet κ context) (head.iterator unread) (head.setEntries κ context) := by
  obtain ⟨hasStandard, info, setBlock?, count⟩ := head
  cases setBlock? with
  | none => exact nextSet_ended _ _ _
  | some block =>
    obtain ⟨setId, bytes⟩ := block
    change Yields (Iterator.nextSet κ context) ⟨some setId, 0, bytes, _⟩ (setBlock κ context setId bytes)
    unfold setBlock
    cases known : format.findSet context setId with
    | some definition => exact nextSet_yields known rfl bytes _
    | none =>
      have ended : Yields (Iterator.nextSet κ context) ⟨none, 0, [], ⟨count, some unread⟩⟩ [] :=
        nextSet_ended 0 [] _
      refine ended.cons ?_
      simp [Iterator.nextSet, known]

/-! ## Set-defined entries and standard entries -/

theorem nextSet_standard (iterator : Iterator) (standard : Entries.Iterator) :
    Iterator.nextSet κ context { iterator with standard } =
      ((Iterator.nextSet κ context iterator).1, { (Iterator.nextSet κ context iterator).2 with standard }) := by
  unfold Iterator.nextSet
  dsimp only
  split
  · rfl
  · split
    · rfl
    · split
      · rfl
      · split <;> rfl

theorem standard_of_nextSet {iterator after : Iterator} {given? : Option (Entry Name)}
    (next : Iterator.nextSet κ context iterator = (given?, after)) : after.standard = iterator.standard := by
  have same : Iterator.nextSet κ context iterator = _ := nextSet_standard iterator iterator.standard
  rw [next] at same
  exact congrArg (fun answered => answered.2.standard) same

theorem setYields_standard {iterator : Iterator} {sets : List (Entry Name)}
    (yields : Yields (Iterator.nextSet κ context) iterator sets) (standard : Entries.Iterator) :
    Yields (Iterator.nextSet κ context) { iterator with standard } sets := by
  intro calls
  rw [← yields calls]
  clear yields
  induction calls generalizing iterator with
  | zero => rw [Entries.answer, nextSet_standard, Entries.answer]
  | succ calls ih => rw [Entries.answer, nextSet_standard, ih, Entries.answer]

theorem next_yields {iterator : Iterator} {sets entries : List (Entry Name)}
    (setYields : Yields (Iterator.nextSet κ context) iterator sets)
    (standard : Yields (Entries.Iterator.next (step κ context)) iterator.standard entries) :
    Yields (Iterator.next κ context) iterator (sets ++ entries) := by
  intro calls
  induction calls generalizing iterator sets entries with
  | zero =>
    have gives := setYields 0
    have behind := standard 0
    rw [Entries.answer] at gives behind ⊢
    unfold Iterator.next
    cases asked : Iterator.nextSet κ context iterator with
    | mk given? after =>
    rw [asked] at gives
    cases sets with
    | cons entry sets =>
      cases gives
      rfl
    | nil =>
      cases gives
      rw [← standard_of_nextSet asked] at behind
      exact behind
  | succ calls ih =>
    have gives := setYields 0
    have setsBehind := setYields.behind
    have behind := standard.behind
    rw [Entries.answer] at gives
    rw [Entries.answer]
    unfold Iterator.next
    cases asked : Iterator.nextSet κ context iterator with
    | mk given? after =>
    rw [asked] at gives setsBehind
    have same := standard_of_nextSet asked
    cases sets with
    | cons entry sets =>
      cases gives
      exact ih setsBehind (same ▸ standard)
    | nil =>
      cases gives
      rw [← same] at behind
      rw [List.nil_append, ← List.getElem?_tail]
      exact ih (setYields_standard setsBehind _) behind

theorem iterator_yields (head : Head Info) (unread : Bytes) :
    Yields (Iterator.next κ context) (head.iterator unread)
      (head.content κ context (Entries.read (step κ context) head.count unread)).entries :=
  next_yields (setEntries_yields head unread) (Entries.iterator_yields (step κ context) head.count unread)

end Record

end MarketWire
