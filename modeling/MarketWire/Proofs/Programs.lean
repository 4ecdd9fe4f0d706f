/-! Running programs with a state and failures: what a sequence does, read off its first step. -/

set_option autoImplicit false

namespace MarketWire.Program

variable {ε σ α β : Type} {first : EStateM ε σ α} {next : α → EStateM ε σ β} {state : σ}

-- A program is run by applying it to a state, so these equations rewrite runs step by step.
theorem bind_ok {value : α} {middle : σ} (h : first state = .ok value middle) :
    (first >>= next) state = next value middle := by
  change EStateM.bind first next state = _
  rw [EStateM.bind, h]

theorem bind_error {error : ε} {middle : σ} (h : first state = .error error middle) :
    (first >>= next) state = .error error middle := by
  change EStateM.bind first next state = _
  rw [EStateM.bind, h]

theorem get_bind {next : σ → EStateM ε σ β} : (get >>= next) state = next state state := rfl

theorem bind_eq_ok {answer : β} {after : σ} (h : (first >>= next) state = .ok answer after) :
    ∃ value middle, first state = .ok value middle ∧ next value middle = .ok answer after := by
  cases h' : first state with
  | ok value middle => exact ⟨value, middle, rfl, (bind_ok h').symm.trans h⟩
  | error error middle =>
    rw [bind_error h'] at h
    cases h

theorem default_bind_eq_ok {condition : Prop} [Decidable condition] {default : α} {answer : β} {after : σ}
    (h : (if condition then first >>= next else pure default >>= next) state = .ok answer after) :
    ∃ value middle, next value middle = .ok answer after := by
  split at h
  case isTrue =>
    obtain ⟨value, middle, -, ran⟩ := bind_eq_ok h
    exact ⟨value, middle, ran⟩
  case isFalse => exact ⟨default, state, h⟩

theorem map_ok {f : α → β} {value : α} {middle : σ} (h : first state = .ok value middle) :
    (f <$> first) state = .ok (f value) middle := by
  change EStateM.map f first state = _
  rw [EStateM.map, h]

theorem map_eq_ok {f : α → β} {answer : β} {after : σ} (h : (f <$> first) state = .ok answer after) :
    ∃ value, first state = .ok value after ∧ f value = answer := by
  rw [map_eq_pure_bind] at h
  obtain ⟨value, middle, first, ends⟩ := bind_eq_ok h
  cases ends
  exact ⟨value, first, rfl⟩

theorem tryCatch_error {handler : ε → EStateM ε σ α} {error : ε} {middle : σ}
    (h : first state = .error error middle) :
    (tryCatch first handler) state = handler error middle := by
  change EStateM.tryCatch first handler state = _
  unfold EStateM.tryCatch
  rw [h]
  rfl

theorem tryCatch_ok {handler : ε → EStateM ε σ α} {value : α} {middle : σ}
    (h : first state = .ok value middle) :
    (tryCatch first handler) state = .ok value middle := by
  change EStateM.tryCatch first handler state = _
  unfold EStateM.tryCatch
  rw [h]

def succeeds (program : EStateM ε σ α) (state : σ) : Bool :=
  match program state with
  | .ok .. => true
  | .error .. => false

theorem succeeds_of_ok {value : α} {after : σ} (h : first state = .ok value after) :
    succeeds first state := by
  unfold succeeds
  rw [h]

theorem exists_of_succeeds (h : succeeds first state) : ∃ value after, first state = .ok value after := by
  cases run : first state with
  | ok value after => exact ⟨value, after, rfl⟩
  | error error after =>
    unfold succeeds at h
    rw [run] at h
    cases h

theorem exists_of_not_succeeds (h : succeeds first state = false) :
    ∃ error left, first state = .error error left := by
  cases run : first state with
  | ok value after =>
    unfold succeeds at h
    rw [run] at h
    cases h
  | error error left => exact ⟨error, left, rfl⟩

/-! ## Invariants -/

def after (program : EStateM ε σ α) (state : σ) : σ :=
  match program state with
  | .ok _ state => state
  | .error _ state => state

theorem ok_after {first : EStateM ε σ Unit} (h : succeeds first state) :
    first state = .ok () (after first state) := by
  obtain ⟨_, found, run⟩ := exists_of_succeeds h
  unfold after
  rw [run]

/-- What holds of a state holds of the state that a program leaves. -/
def Keeps (holds : σ → Prop) (program : EStateM ε σ α) : Prop :=
  ∀ state, holds state → holds (after program state)

section
variable {holds : σ → Prop}

theorem Keeps.of_ok (keeps : Keeps holds first) (held : holds state) {value : α} {found : σ}
    (h : first state = .ok value found) : holds found := by
  have kept := keeps state held
  unfold after at kept
  rw [h] at kept
  exact kept

theorem Keeps.pure (value : α) : Keeps holds (pure value : EStateM ε σ α) := fun _ held => held

theorem Keeps.throw (error : ε) : Keeps holds (throw error : EStateM ε σ α) := fun _ held => held

theorem Keeps.modify {change : σ → σ} (keeps : ∀ state, holds state → holds (change state)) :
    Keeps holds (modify change : EStateM ε σ PUnit) := fun state held => keeps state held

def Gives (holds : σ → Prop) (post : α → Prop) (program : EStateM ε σ α) : Prop :=
  ∀ state, holds state → holds (after program state) ∧
    ∀ value found, program state = .ok value found → post value

theorem Keeps.gives (keeps : Keeps holds first) : Gives holds (fun _ => True) first := fun state held =>
  ⟨keeps state held, fun _ _ _ => trivial⟩

theorem Gives.keeps {post : α → Prop} (gives : Gives holds post first) : Keeps holds first := fun state held =>
  (gives state held).1

theorem Gives.pure {post : α → Prop} {value : α} (told : post value) :
    Gives holds post (Pure.pure value : EStateM ε σ α) := by
  refine fun state held => ⟨held, ?_⟩
  rintro _ _ ⟨⟩
  exact told

end

/-! ## Failures -/

def Fails (post : ε → σ → Prop) (program : EStateM ε σ α) (state : σ) : Prop :=
  ∀ error left, program state = .error error left → post error left

section
variable {post : ε → σ → Prop}

theorem Fails.pure (value : α) : Fails post (pure value : EStateM ε σ α) state := nofun

theorem Fails.throw {error : ε} (told : post error state) :
    Fails post (throw error : EStateM ε σ α) state := by
  rintro _ _ ⟨⟩
  exact told

theorem Fails.bind (fails : Fails post first state)
    (behind : ∀ value middle, first state = .ok value middle → Fails post (next value) middle) :
    Fails post (first >>= next) state := by
  intro error left h
  cases h' : first state with
  | ok value middle =>
    rw [bind_ok h'] at h
    exact behind value middle h' error left h
  | error cause middle =>
    rw [bind_error h'] at h
    cases h
    exact fails error left h'

end

/-! ## Two runs -/

/-- Two runs end alike: with the same answer or the same error, in states that are related. -/
def Alike {ε σ τ α : Type} (related : σ → τ → Prop) :
    EStateM.Result ε σ α → EStateM.Result ε τ α → Prop
  | .ok value state, .ok value' state' => value = value' ∧ related state state'
  | .error error state, .error error' state' => error = error' ∧ related state state'
  | _, _ => False

/-- What calls answer one after another, each with what is seen of the state behind it. A call that fails leaves its
state to the next one. -/
def trace {κ ω : Type} (run : κ → EStateM ε σ α) (seen : σ → ω) : List κ → σ → List (Except ε α × ω)
  | [], _ => []
  | call :: rest, state => match run call state with
    | .ok value state => (.ok value, seen state) :: trace run seen rest state
    | .error error state => (.error error, seen state) :: trace run seen rest state

section
variable {τ κ ω : Type} {related : σ → τ → Prop} {first' : EStateM ε τ α} {state' : τ}

theorem Alike.after (alike : Alike related (first state) (first' state')) :
    related (after first state) (after first' state') := by
  unfold Program.after
  cases run : first state <;> cases run' : first' state' <;> rw [run, run'] at alike
  · exact alike.2
  · cases alike
  · cases alike
  · exact alike.2

theorem Alike.map (alike : Alike related (first state) (first' state')) (f : α → β) :
    Alike related ((f <$> first) state) ((f <$> first') state') := by
  change Alike related (EStateM.map f first state) (EStateM.map f first' state')
  unfold EStateM.map
  cases run : first state <;> cases run' : first' state' <;> rw [run, run'] at alike
  · exact ⟨congrArg f alike.1, alike.2⟩
  · cases alike
  · cases alike
  · exact alike

/-- Calls that end alike in related states, one by one, have the same trace. -/
theorem trace_eq {run : κ → EStateM ε σ α} {run' : κ → EStateM ε τ α} {seen : σ → ω} {seen' : τ → ω}
    (same : ∀ state state', related state state' → seen state = seen' state')
    (alike : ∀ call state state', related state state' → Alike related (run call state) (run' call state'))
    (calls : List κ) (start : related state state') : trace run seen calls state = trace run' seen' calls state' := by
  induction calls generalizing state state' with
  | nil => rfl
  | cons call rest ih =>
    have ended := alike call state state' start
    unfold trace
    cases ran : run call state <;> cases ran' : run' call state' <;> rw [ran, ran'] at ended
    · dsimp only
      rw [ended.1, same _ _ ended.2, ih ended.2]
    · cases ended
    · cases ended
    · dsimp only
      rw [ended.1, same _ _ ended.2, ih ended.2]

theorem forall_mem_trace {holds : σ → Prop} {run : κ → EStateM ε σ α} {seen : σ → ω} {calls : List κ}
    (keeps : ∀ call, Keeps holds (run call)) (held : holds state) :
    ∀ entry ∈ trace run seen calls state, ∃ found, holds found ∧ entry.2 = seen found := by
  induction calls generalizing state with
  | nil => exact nofun
  | cons call rest ih =>
    have kept := keeps call state held
    unfold after at kept
    unfold trace
    cases ran : run call state <;> rw [ran] at kept <;>
      exact List.forall_mem_cons.mpr ⟨⟨_, kept, rfl⟩, ih kept⟩

end

/-! ## Two programs -/

/-- From related states two programs end alike, and what they answer has a property. -/
def Relates {ε σ τ α : Type} (related : σ → τ → Prop) (post : α → Prop) (first : EStateM ε σ α)
    (first' : EStateM ε τ α) : Prop :=
  ∀ state state', related state state' → Alike related (first state) (first' state') ∧
    ∀ value found, first state = .ok value found → post value

abbrev Agree {ε σ τ α : Type} (related : σ → τ → Prop) (first : EStateM ε σ α) (first' : EStateM ε τ α) : Prop :=
  Relates related (fun _ => True) first first'

section
variable {τ : Type} {related : σ → τ → Prop} {post : α → Prop} {first' : EStateM ε τ α}

theorem Relates.pure {value : α} (told : post value) :
    Relates related post (pure value : EStateM ε σ α) (Pure.pure value : EStateM ε τ α) := by
  refine fun state state' same => ⟨⟨rfl, same⟩, ?_⟩
  rintro _ _ ⟨⟩
  exact told

theorem Relates.throw (error : ε) :
    Relates related post (throw error : EStateM ε σ α) (throw error : EStateM ε τ α) :=
  fun _ _ same => ⟨⟨rfl, same⟩, nofun⟩

-- A step that fails may have changed both states before it did, so they are related in this case as well.
theorem Relates.bind {post' : β → Prop} {next' : α → EStateM ε τ β} (relates : Relates related post first first')
    (behind : ∀ value, post value → Relates related post' (next value) (next' value)) :
    Relates related post' (first >>= next) (first' >>= next') := by
  intro state state' same
  obtain ⟨alike, told⟩ := relates state state' same
  cases ran : first state with
  | ok value found =>
    cases ran' : first' state' <;> rw [ran, ran'] at alike
    · obtain ⟨rfl, same⟩ := alike
      rw [bind_ok ran, bind_ok ran']
      exact behind value (told value found ran) _ _ same
    · cases alike
  | error error left =>
    cases ran' : first' state' <;> rw [ran, ran'] at alike
    · cases alike
    · rw [bind_error ran, bind_error ran']
      exact ⟨alike, nofun⟩

theorem Relates.ite {condition : Prop} [Decidable condition] {other : EStateM ε σ α} {other' : EStateM ε τ α}
    (holdsThen : condition → Relates related post first first')
    (holdsElse : ¬ condition → Relates related post other other') :
    Relates related post (if condition then first else other) (if condition then first' else other') := by
  by_cases h : condition
  · rw [if_pos h, if_pos h]
    exact holdsThen h
  · rw [if_neg h, if_neg h]
    exact holdsElse h

-- What the second state has besides may be what makes the programs alike, so it is kept with the relation.
theorem agree_of_keeps {holds : τ → Prop} (keeps : Keeps holds first')
    (alike : ∀ state state', related state state' → holds state' → Alike related (first state) (first' state')) :
    Agree (fun state state' => related state state' ∧ holds state') first first' := by
  rintro state state' ⟨same, held⟩
  have alike := alike state state' same held
  have kept := keeps state' held
  unfold after at kept
  refine ⟨?_, fun _ _ _ => trivial⟩
  cases ran : first state <;> cases ran' : first' state' <;> rw [ran, ran'] at alike <;> rw [ran'] at kept
  · exact ⟨alike.1, alike.2, kept⟩
  · cases alike
  · cases alike
  · exact ⟨alike.1, alike.2, kept⟩

def Kept (holds : σ → Prop) (state state' : σ) : Prop := state = state' ∧ holds state

section
variable {holds : σ → Prop}

/-- What a program keeps is a relation between its runs from one state. -/
theorem relates_kept_iff : Relates (Kept holds) post first first ↔ Gives holds post first := by
  constructor
  · intro relates state held
    obtain ⟨alike, told⟩ := relates state state ⟨rfl, held⟩
    exact ⟨alike.after.2, told⟩
  · rintro gives state _ ⟨rfl, held⟩
    obtain ⟨kept, told⟩ := gives state held
    refine ⟨?_, told⟩
    unfold after at kept
    cases ran : first state <;> rw [ran] at kept <;> exact ⟨rfl, rfl, kept⟩

theorem Relates.keeps (relates : Relates (Kept holds) post first first) : Keeps holds first :=
  (relates_kept_iff.mp relates).keeps

theorem Keeps.agree (keeps : Keeps holds first) : Agree (Kept holds) first first :=
  relates_kept_iff.mpr keeps.gives

theorem Gives.bind {post' : β → Prop} (gives : Gives holds post first)
    (behind : ∀ value, post value → Gives holds post' (next value)) : Gives holds post' (first >>= next) :=
  relates_kept_iff.mp ((relates_kept_iff.mpr gives).bind fun value told => relates_kept_iff.mpr (behind value told))

theorem Keeps.bind (keeps : Keeps holds first) (behind : ∀ value, Keeps holds (next value)) :
    Keeps holds (first >>= next) :=
  (keeps.agree.bind fun value _ => (behind value).agree).keeps

theorem Keeps.ite {condition : Prop} [Decidable condition] {other : EStateM ε σ α}
    (holdsThen : condition → Keeps holds first) (holdsElse : ¬ condition → Keeps holds other) :
    Keeps holds (if condition then first else other) :=
  (Relates.ite (fun h => (holdsThen h).agree) fun h => (holdsElse h).agree).keeps

end

end

/-! ## Results -/

theorem ok_bind (value : α) (next : α → Except ε β) : (Except.ok value >>= next) = next value := rfl

theorem of_ok_map {f : α → β} {result : Except ε α} {answer : β} (h : f <$> result = .ok answer) :
    ∃ value, result = .ok value ∧ f value = answer := by
  cases result with
  | ok value => exact ⟨value, rfl, Except.ok.inj h⟩
  | error error => cases h

theorem of_ok_bind {result : Except ε α} {next : α → Except ε β} {answer : β} (h : (result >>= next) = .ok answer) :
    ∃ value, result = .ok value ∧ next value = .ok answer := by
  cases result with
  | ok value => exact ⟨value, rfl, h⟩
  | error error => cases h

end MarketWire.Program
