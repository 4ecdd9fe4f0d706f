import MarketWire.Proofs.Programs

/-! Programs that may change places.

It does not matter which of two programs runs first if, one after the other, they succeed in the same states, with
the same answers, and leave the same state. This passes from the steps of programs to the programs that are made of
them, so it needs to be known of single steps alone. A step tests the state and then changes it.
-/

set_option autoImplicit false

namespace MarketWire.Program

variable {ε σ α β γ : Type}

/-- Two programs succeed one after the other whichever is first, and do the same. -/
def Commutes (first : EStateM ε σ α) (second : EStateM ε σ β) : Prop :=
  ∀ state value value' after,
    (∃ middle, first state = .ok value middle ∧ second middle = .ok value' after) ↔
      ∃ middle, second state = .ok value' middle ∧ first middle = .ok value after

namespace Commutes

variable {first : EStateM ε σ α} {second : EStateM ε σ β}

theorem symm (commutes : Commutes first second) : Commutes second first :=
  fun state value value' after => (commutes state value' value after).symm

theorem pure (value : α) (second : EStateM ε σ β) : Commutes (pure value) second := by
  intro state answer answer' after
  constructor
  · rintro ⟨_, ⟨⟩, run⟩
    exact ⟨after, run, rfl⟩
  · rintro ⟨_, run, ⟨⟩⟩
    exact ⟨state, rfl, run⟩

theorem of_fails (fails : ∀ state value after, first state ≠ .ok value after) (second : EStateM ε σ β) :
    Commutes first second := by
  intro state value value' after
  constructor
  · rintro ⟨_, run, _⟩
    exact absurd run (fails _ _ _)
  · rintro ⟨_, _, run⟩
    exact absurd run (fails _ _ _)

theorem throw (error : ε) (second : EStateM ε σ β) : Commutes (throw error : EStateM ε σ α) second :=
  of_fails (by rintro _ _ _ ⟨⟩) second

theorem congr {other : EStateM ε σ α} (commutes : Commutes first second)
    (same : ∀ state value after, other state = .ok value after ↔ first state = .ok value after) :
    Commutes other second := by
  intro state value value' after
  simp only [same]
  exact commutes state value value' after

theorem bind {next : α → EStateM ε σ γ} (commutes : Commutes first second)
    (behind : ∀ value, Commutes (next value) second) : Commutes (first >>= next) second := by
  intro state answer answer' after
  constructor
  · rintro ⟨middle, run, last⟩
    obtain ⟨value, early, start, continued⟩ := bind_eq_ok run
    -- The second program moves in front of what follows, and then in front of the start.
    obtain ⟨early', last, continued⟩ := (behind value early answer answer' after).mp ⟨middle, continued, last⟩
    obtain ⟨middle', last, start⟩ := (commutes state value answer' early').mp ⟨early, start, last⟩
    exact ⟨middle', last, (bind_ok start).trans continued⟩
  · rintro ⟨middle, last, run⟩
    obtain ⟨value, early, start, continued⟩ := bind_eq_ok run
    obtain ⟨early', start, last⟩ := (commutes state value answer' early).mpr ⟨middle, last, start⟩
    obtain ⟨middle', continued, last⟩ := (behind value early' answer answer' after).mpr ⟨early, last, continued⟩
    exact ⟨middle', (bind_ok start).trans continued, last⟩

theorem ite {condition : Prop} [Decidable condition] {other : EStateM ε σ α}
    (commutes : condition → Commutes first second) (commutes' : ¬ condition → Commutes other second) :
    Commutes (if condition then first else other) second := by
  by_cases holds : condition
  · rw [if_pos holds]
    exact commutes holds
  · rw [if_neg holds]
    exact commutes' holds

end Commutes

/-! ## Steps -/

/-- A program succeeds exactly in the states that pass a test, and changes them. -/
structure Guarded (program : EStateM ε σ Unit) (guard : σ → Prop) (change : σ → σ) : Prop where
  run : ∀ {state after}, program state = .ok () after ↔ guard state ∧ after = change state

theorem guarded_modify (change : σ → σ) :
    Guarded (modify change : EStateM ε σ PUnit) (fun _ => True) change := by
  refine ⟨fun {state after} => ?_⟩
  constructor
  · rintro ⟨⟩
    exact ⟨trivial, rfl⟩
  · rintro ⟨-, rfl⟩
    rfl

section
variable {first second : EStateM ε σ Unit} {guard guard' : σ → Prop} {change change' : σ → σ}

theorem Guarded.commutes (guarded : Guarded first guard change) (guarded' : Guarded second guard' change')
    (guards : ∀ state, guard state ∧ guard' (change state) ↔ guard' state ∧ guard (change' state))
    (changes : ∀ state, change' (change state) = change (change' state)) : Commutes first second := by
  intro state _ _ after
  constructor
  · rintro ⟨_, run, run'⟩
    obtain ⟨holds, rfl⟩ := guarded.run.mp run
    obtain ⟨holds', rfl⟩ := guarded'.run.mp run'
    obtain ⟨early', late⟩ := (guards state).mp ⟨holds, holds'⟩
    exact ⟨_, guarded'.run.mpr ⟨early', rfl⟩, guarded.run.mpr ⟨late, changes state⟩⟩
  · rintro ⟨_, run', run⟩
    obtain ⟨holds', rfl⟩ := guarded'.run.mp run'
    obtain ⟨holds, rfl⟩ := guarded.run.mp run
    obtain ⟨early, late'⟩ := (guards state).mpr ⟨holds', holds⟩
    exact ⟨_, guarded.run.mpr ⟨early, rfl⟩, guarded'.run.mpr ⟨late', (changes state).symm⟩⟩

theorem Guarded.commutes_of_frame (guarded : Guarded first guard change) (guarded' : Guarded second guard' change')
    (frame : ∀ state, guard' (change state) ↔ guard' state) (frame' : ∀ state, guard (change' state) ↔ guard state)
    (changes : ∀ state, change' (change state) = change (change' state)) : Commutes first second :=
  guarded.commutes guarded' (fun state => by rw [frame, frame', and_comm]) changes

end

/-! ## Interleavings -/

theorem seq_eq_ok {first : EStateM ε σ Unit} {next : EStateM ε σ α} {state after : σ} {answer : α} :
    (first >>= fun _ => next) state = .ok answer after ↔
      ∃ middle, first state = .ok () middle ∧ next middle = .ok answer after := by
  constructor
  · intro run
    obtain ⟨_, middle, start, continued⟩ := bind_eq_ok run
    exact ⟨middle, start, continued⟩
  · rintro ⟨middle, start, continued⟩
    exact (bind_ok start).trans continued

section
variable {ι : Type} {run : ι → EStateM ε σ Unit}

theorem forM_cons_eq_ok {step : ι} {rest : List ι} {state after : σ} :
    (step :: rest).forM run state = .ok () after ↔
      ∃ middle, run step state = .ok () middle ∧ rest.forM run middle = .ok () after :=
  seq_eq_ok

theorem forM_append_eq_ok {steps steps' : List ι} {state after : σ} :
    (steps ++ steps').forM run state = .ok () after ↔
      ∃ middle, steps.forM run state = .ok () middle ∧ steps'.forM run middle = .ok () after := by
  rw [List.forM_eq_forM, List.forM_append]
  exact seq_eq_ok

theorem Commutes.forM {steps : List ι} {other : EStateM ε σ α} (commutes : ∀ step ∈ steps, Commutes (run step) other) :
    Commutes (steps.forM run) other := by
  induction steps with
  | nil => exact .pure _ _
  | cons step rest ih =>
    obtain ⟨first, others⟩ := List.forall_mem_cons.mp commutes
    exact first.bind fun _ => ih others

variable {isFirst : ι → Bool}
  (commutes : ∀ step step', isFirst step = true → isFirst step' = false → Commutes (run step) (run step'))
include commutes

/-- Steps of one kind may be moved in front of all steps of the other kind. -/
theorem forM_eq_ok_iff_sorted {steps : List ι} {state after : σ} :
    steps.forM run state = .ok () after ↔
      (steps.filter isFirst ++ steps.filter (!isFirst ·)).forM run state = .ok () after := by
  induction steps generalizing state with
  | nil => exact Iff.rfl
  | cons step rest ih =>
    simp only [forM_cons_eq_ok, ih]
    cases kind : isFirst step with
    | true =>
      rw [List.filter_cons_of_pos kind, List.filter_cons_of_neg (by rw [kind]; decide), List.cons_append,
        forM_cons_eq_ok]
    | false =>
      rw [List.filter_cons_of_neg (by rw [kind]; decide), List.filter_cons_of_pos (by rw [kind]; rfl)]
      have early : Commutes ((rest.filter isFirst).forM run) (run step) := .forM fun step' member =>
        commutes step' step (List.mem_filter.mp member).2 kind
      simp only [forM_append_eq_ok, forM_cons_eq_ok]
      constructor
      · rintro ⟨_, ran, middle, firsts, others⟩
        obtain ⟨middle', firsts, ran⟩ := (early state () () middle).mpr ⟨_, ran, firsts⟩
        exact ⟨middle', firsts, middle, ran, others⟩
      · rintro ⟨_, firsts, middle, ran, others⟩
        obtain ⟨middle', ran, firsts⟩ := (early state () () middle).mp ⟨_, firsts, ran⟩
        exact ⟨middle', ran, middle, firsts, others⟩

/-- What steps do together depends on the order in each kind alone. -/
theorem forM_eq_ok_iff_interleaved {steps steps' : List ι} (same : steps.filter isFirst = steps'.filter isFirst)
    (same' : steps.filter (!isFirst ·) = steps'.filter (!isFirst ·)) {state after : σ} :
    steps.forM run state = .ok () after ↔ steps'.forM run state = .ok () after := by
  rw [forM_eq_ok_iff_sorted commutes, same, same', ← forM_eq_ok_iff_sorted commutes]

end

end MarketWire.Program
