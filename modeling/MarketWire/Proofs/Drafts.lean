import MarketWire.Container.Session
import MarketWire.Proofs.Frames

/-! Steps of the writing of a container.

From a given session on, a step may test without a change, extend the output, or do all or nothing.
A container that is written as a whole leaves what its steps appended, with the number of entries
filled in.
-/

set_option autoImplicit false

namespace MarketWire

/-- What the bytes of a container become when it ends: the number of entries stands in its place. -/
def Session.Seals (session : Session) (width start : Nat) (added final : Bytes) : Prop :=
  match session.countAt with
  | none => final = added
  | some position => ∃ head tail, position = start + head.length ∧
      added = head ++ List.replicate width 0 ++ tail ∧
      final = head ++ Bytes.ofNat width session.count ++ tail

namespace Drafting

variable {α β : Type} {session : Session}

def Tests (session : Session) (step : Drafting α) (known : α → Prop) : Prop :=
  ∀ output, match step ⟨session, output⟩ with
    | .ok value after => after = ⟨session, output⟩ ∧ known value
    | .error _ after => after = ⟨session, output⟩

/-- A step that extends the output; of a success something is known, given the position at which it
started. -/
def Extends (session : Session) (step : Drafting α) (post : Nat → α → Session → Bytes → Prop) : Prop :=
  ∀ output, match step ⟨session, output⟩ with
    | .ok value after => after.output.capacity = output.capacity ∧
        ∃ added, after.output.toList = output.toList ++ added ∧
          post output.position value after.session added
    | .error _ after => after.output.capacity = output.capacity ∧
        output.toList <+: after.output.toList

/-- A step that does all or nothing. -/
def Commits (session : Session) (step : Drafting α) (post : Nat → α → Session → Bytes → Prop) : Prop :=
  ∀ output, match step ⟨session, output⟩ with
    | .ok value after => after.output.capacity = output.capacity ∧
        ∃ added, after.output.toList = output.toList ++ added ∧
          post output.position value after.session added
    | .error _ after => after = ⟨session, output⟩

section
variable {writer : Write α} {output after : Output}

theorem write_ok {value : α} (h : writer output = .ok value after) :
    write writer ⟨session, output⟩ = .ok value ⟨session, after⟩ := by
  simp only [write, h]

theorem write_error {error : EncodeError} (h : writer output = .error error after) :
    write writer ⟨session, output⟩ = .error error ⟨session, after⟩ := by
  simp only [write, h]

theorem position_ok :
    write Write.position ⟨session, output⟩ = .ok output.position ⟨session, output⟩ := rfl

end

section
variable {step : Drafting α} {next : α → Drafting β} {known : α → Prop}
  {post : Nat → α → Session → Bytes → Prop}

/-! ## Tests -/

theorem Tests.of_ok (tests : Tests session step known) {output : Output} {value : α} {after : Draft}
    (h : step ⟨session, output⟩ = .ok value after) : after = ⟨session, output⟩ ∧ known value := by
  have told := tests output
  rw [h] at told
  exact told

theorem Tests.of_error (tests : Tests session step known) {output : Output} {error : EncodeError}
    {after : Draft} (h : step ⟨session, output⟩ = .error error after) :
    after = ⟨session, output⟩ := by
  have told := tests output
  rw [h] at told
  exact told

theorem Tests.pure (value : α) (holds : known value) :
    Tests session (Pure.pure value : Drafting α) known :=
  fun _ => ⟨rfl, holds⟩

theorem Tests.throw (error : EncodeError) :
    Tests session (MonadExcept.throw error : Drafting α) known :=
  fun _ => rfl

theorem Tests.mono {weaker : α → Prop} (tests : Tests session step known)
    (implies : ∀ value, known value → weaker value) : Tests session step weaker := by
  intro output
  cases h : step ⟨session, output⟩ with
  | ok value after =>
    obtain ⟨same, holds⟩ := tests.of_ok h
    exact ⟨same, implies value holds⟩
  | error error after => exact tests.of_error h

theorem Tests.bind {nextKnown : β → Prop} (tests : Tests session step known)
    (behind : ∀ value, known value → Tests session (next value) nextKnown) :
    Tests session (step >>= next) nextKnown := by
  intro output
  cases h : step ⟨session, output⟩ with
  | error error after =>
    rw [Program.bind_error h]
    exact tests.of_error h
  | ok value after =>
    obtain ⟨rfl, holds⟩ := tests.of_ok h
    rw [Program.bind_ok h]
    exact behind value holds output

theorem Tests.ite {condition : Prop} [Decidable condition] {other : Drafting α}
    (holds : condition → Tests session step known) (fails : ¬ condition → Tests session other known) :
    Tests session (if condition then step else other) known := by
  by_cases h : condition
  · rw [if_pos h]
    exact holds h
  · rw [if_neg h]
    exact fails h

theorem session_tests : Tests session Drafting.session (· = session) := fun _ => ⟨rfl, rfl⟩

theorem refuse_tests (reason : String) : Tests session (refuse reason : Drafting α) known :=
  Tests.throw _

theorem requireIdle_tests (wording : Wording) :
    Tests session (requireIdle wording) fun _ => session.phase = .idle := by
  apply session_tests.bind
  rintro _ rfl
  refine Tests.ite (fun _ => refuse_tests _) fun fails => Tests.pure _ ?_
  exact Decidable.of_not_not fails

theorem requireEntries_tests (wording : Wording) :
    Tests session (requireEntries wording) fun _ => session.phase = .entries := by
  apply session_tests.bind
  rintro _ rfl
  refine Tests.ite (fun _ => refuse_tests _) fun fails => Tests.pure _ ?_
  exact Decidable.of_not_not fails

theorem requireCount_tests (most : Nat) :
    Tests session (requireCount most) fun _ => session.count ≠ most := by
  apply session_tests.bind
  rintro _ rfl
  exact Tests.ite (fun _ => Tests.throw _) fun fails => Tests.pure _ fails

/-! ## Extensions -/

theorem Extends.of_ok (extending : Extends session step post) {output : Output} {value : α}
    {after : Draft} (h : step ⟨session, output⟩ = .ok value after) :
    after.output.capacity = output.capacity ∧ ∃ added,
      after.output.toList = output.toList ++ added ∧
        post output.position value after.session added := by
  have told := extending output
  rw [h] at told
  exact told

theorem Extends.of_error (extending : Extends session step post) {output : Output}
    {error : EncodeError} {after : Draft} (h : step ⟨session, output⟩ = .error error after) :
    after.output.capacity = output.capacity ∧ output.toList <+: after.output.toList := by
  have told := extending output
  rw [h] at told
  exact told

theorem Extends.mono {weaker : Nat → α → Session → Bytes → Prop} (extending : Extends session step post)
    (implies : ∀ start value after added, post start value after added →
      weaker start value after added) : Extends session step weaker := by
  intro output
  cases h : step ⟨session, output⟩ with
  | ok value after =>
    obtain ⟨capacity, added, bytes, told⟩ := extending.of_ok h
    exact ⟨capacity, added, bytes, implies _ _ _ _ told⟩
  | error error after => exact extending.of_error h

/-- What the second of two steps tells may depend on what the first one appended. -/
theorem Extends.follow {final : Nat → β → Session → Bytes → Prop}
    (first : Extends session step post)
    (behind : ∀ start value middle head, post start value middle head →
      Extends middle (next value) fun next answer after tail => next = start + head.length →
        final start answer after (head ++ tail)) :
    Extends session (step >>= next) final := by
  intro output
  cases h : step ⟨session, output⟩ with
  | error error after =>
    rw [Program.bind_error h]
    exact first.of_error h
  | ok value middle =>
    obtain ⟨capacity, head, bytes, told⟩ := first.of_ok h
    have position : middle.output.position = output.position + head.length := by
      rw [← Output.length_toList, bytes, List.length_append, Output.length_toList]
    have follow := behind _ _ _ _ told
    rw [Program.bind_ok h]
    cases h' : next value middle with
    | error error after =>
      obtain ⟨sameCapacity, kept⟩ := follow.of_error h'
      have before : output.toList <+: middle.output.toList := bytes ▸ List.prefix_append _ _
      exact ⟨sameCapacity.trans capacity, before.trans kept⟩
    | ok answer after =>
      obtain ⟨sameCapacity, tail, tailBytes, tailTold⟩ := follow.of_ok h'
      refine ⟨sameCapacity.trans capacity, head ++ tail, ?_, tailTold position⟩
      rw [tailBytes, bytes, List.append_assoc]

theorem Extends.write {writer : Write α} {writes : Nat → α → Bytes → Prop}
    (extending : Write.Extends writer writes) :
    Extends session (Drafting.write writer) fun start value after added =>
      after = session ∧ writes start value added := by
  intro output
  cases h : writer output with
  | ok value after =>
    obtain ⟨capacity, added, bytes, told⟩ := extending.of_ok h
    rw [write_ok h]
    exact ⟨capacity, added, bytes, rfl, told⟩
  | error error after =>
    rw [write_error h]
    exact extending.of_error h

theorem Extends.pure (value : α) :
    Extends session (Pure.pure value : Drafting α) fun _ answer after added =>
      answer = value ∧ after = session ∧ added = [] :=
  fun _ => ⟨rfl, [], (List.append_nil _).symm, rfl, rfl, rfl⟩

theorem Extends.throw (error : EncodeError) :
    Extends session (MonadExcept.throw error : Drafting α) post :=
  fun _ => ⟨rfl, List.prefix_rfl⟩

theorem Extends.throw_bind {nextPost : Nat → β → Session → Bytes → Prop} (error : EncodeError) :
    Extends session ((MonadExcept.throw error : Drafting α) >>= next) nextPost :=
  fun _ => ⟨rfl, List.prefix_rfl⟩

theorem Extends.ite {condition : Prop} [Decidable condition] {other : Drafting α}
    (holds : condition → Extends session step post)
    (fails : ¬ condition → Extends session other post) :
    Extends session (if condition then step else other) post := by
  by_cases h : condition
  · rw [if_pos h]
    exact holds h
  · rw [if_neg h]
    exact fails h

theorem update_extends (change : Session → Session) :
    Extends session (update change) fun _ _ after added => after = change session ∧ added = [] :=
  fun _ => ⟨rfl, [], (List.append_nil _).symm, rfl, rfl⟩

theorem enter_extends (phase : Phase) :
    Extends session (enter phase) fun _ _ after added =>
      after = { session with phase } ∧ added = [] :=
  update_extends _

theorem Tests.then_extends {nextPost : Nat → β → Session → Bytes → Prop}
    (tests : Tests session step known)
    (behind : ∀ value, known value → Extends session (next value) nextPost) :
    Extends session (step >>= next) nextPost := by
  intro output
  cases h : step ⟨session, output⟩ with
  | error error after =>
    obtain rfl := tests.of_error h
    rw [Program.bind_error h]
    exact ⟨rfl, List.prefix_rfl⟩
  | ok value after =>
    obtain ⟨rfl, holds⟩ := tests.of_ok h
    rw [Program.bind_ok h]
    exact behind value holds output

theorem Extends.forM {step : α → Drafting Unit} (values : List α)
    (told : List α → Session → Bytes → Prop) (empty : told [] session [])
    (next : ∀ before value after current added, before ++ value :: after = values →
      told before current added → Extends current (step value) fun _ _ last more =>
        told (before ++ [value]) last (added ++ more)) :
    Extends session (values.forM step) fun _ _ last added => told values last added := by
  -- For the induction the values that are written stand apart from those that are not.
  suffices ∀ after before current added, before ++ after = values → told before current added →
      Extends current (after.forM step) fun _ _ last more => told values last (added ++ more) by
    have all := this values [] session [] rfl empty
    simpa using all
  intro after
  induction after with
  | nil =>
    intro before current added split holds
    apply (Extends.pure ()).mono
    rintro _ _ _ _ ⟨-, rfl, rfl⟩
    rw [List.append_nil] at split ⊢
    exact split ▸ holds
  | cons value rest ih =>
    intro before current added split holds
    refine (next _ _ _ _ _ split holds).follow fun _ _ middle head told => ?_
    refine (ih (before ++ [value]) middle (added ++ head) (by simpa using split) told).mono ?_
    intro _ _ last tail told _
    rwa [← List.append_assoc]

/-! ## All or nothing -/

theorem Commits.of_ok (commits : Commits session step post) {output : Output} {value : α}
    {after : Draft} (h : step ⟨session, output⟩ = .ok value after) :
    after.output.capacity = output.capacity ∧ ∃ added,
      after.output.toList = output.toList ++ added ∧
        post output.position value after.session added := by
  have told := commits output
  rw [h] at told
  exact told

theorem Commits.of_error (commits : Commits session step post) {output : Output}
    {error : EncodeError} {after : Draft} (h : step ⟨session, output⟩ = .error error after) :
    after = ⟨session, output⟩ := by
  have told := commits output
  rw [h] at told
  exact told

-- What does all or nothing extends the output in either case.
theorem Commits.extends (commits : Commits session step post) : Extends session step post := by
  intro output
  cases h : step ⟨session, output⟩ with
  | ok value after => exact commits.of_ok h
  | error error after =>
    obtain rfl := commits.of_error h
    exact ⟨rfl, List.prefix_rfl⟩

theorem Commits.mono {weaker : Nat → α → Session → Bytes → Prop} (commits : Commits session step post)
    (implies : ∀ start value after added, post start value after added →
      weaker start value after added) : Commits session step weaker := by
  intro output
  cases h : step ⟨session, output⟩ with
  | ok value after =>
    obtain ⟨capacity, added, bytes, told⟩ := commits.of_ok h
    exact ⟨capacity, added, bytes, implies _ _ _ _ told⟩
  | error error after => exact commits.of_error h

theorem Commits.throw_bind {nextPost : Nat → β → Session → Bytes → Prop} (error : EncodeError) :
    Commits session ((MonadExcept.throw error : Drafting α) >>= next) nextPost :=
  fun _ => rfl

theorem Commits.ite {condition : Prop} [Decidable condition] {other : Drafting α}
    (holds : condition → Commits session step post)
    (fails : ¬ condition → Commits session other post) :
    Commits session (if condition then step else other) post := by
  by_cases h : condition
  · rw [if_pos h]
    exact holds h
  · rw [if_neg h]
    exact fails h

theorem Tests.then_commits {nextPost : Nat → β → Session → Bytes → Prop}
    (tests : Tests session step known)
    (behind : ∀ value, known value → Commits session (next value) nextPost) :
    Commits session (step >>= next) nextPost := by
  intro output
  cases h : step ⟨session, output⟩ with
  | error error after =>
    rw [Program.bind_error h]
    exact tests.of_error h
  | ok value after =>
    obtain ⟨rfl, holds⟩ := tests.of_ok h
    rw [Program.bind_ok h]
    exact behind value holds output

theorem Commits.write_update {writer : Write α} {writes : Nat → α → Bytes → Prop}
    (extending : Write.Extends writer writes) (change : α → Session → Session) :
    Commits session (Drafting.write (Write.atomic writer) >>= fun value => update (change value))
      fun start _ after added => ∃ value, after = change value session ∧ writes start value added := by
  intro output
  cases h : Write.atomic writer output with
  | ok value after =>
    obtain ⟨capacity, added, bytes, told⟩ := extending.atomic.of_ok h
    rw [Program.bind_ok (write_ok h)]
    exact ⟨capacity, added, bytes, value, rfl, told⟩
  | error error after =>
    have restored := extending.atomic_error h
    rw [Program.bind_error (write_error h)]
    exact congrArg (Draft.mk session) restored

theorem Commits.of_position {next : Nat → Drafting β} {nextPost : Nat → β → Session → Bytes → Prop}
    (behind : ∀ start, Commits session (next start) fun here answer after added =>
      here = start → nextPost start answer after added) :
    Commits session (write Write.position >>= next) nextPost := by
  intro output
  rw [Program.bind_ok position_ok]
  cases h : next output.position ⟨session, output⟩ with
  | ok value after =>
    obtain ⟨capacity, added, bytes, told⟩ := (behind output.position).of_ok h
    exact ⟨capacity, added, bytes, told rfl⟩
  | error error after => exact (behind output.position).of_error h

end

theorem bytes_commits (payload : Bytes) :
    Commits session (write (Write.bytes payload)) fun _ _ after added =>
      after = session ∧ added = payload := by
  intro output
  cases h : Write.bytes payload output with
  | ok _ after =>
    obtain ⟨capacity, added, bytes, rfl⟩ := (Write.bytes_emits payload).of_ok h
    rw [write_ok h]
    exact ⟨capacity, added, bytes, rfl, rfl⟩
  | error error after =>
    obtain ⟨written, room, fits⟩ := output
    rw [write_error h]
    unfold Write.bytes at h
    dsimp only at h
    split at h
    · cases h
    · cases h
      rfl

theorem addEntry_commits {writer : Write Unit} {writes : Nat → Unit → Bytes → Prop}
    (extending : Write.Extends writer writes) :
    Commits session (addEntry writer) fun start _ after added =>
      after = { session with count := session.count + 1 } ∧ writes start () added := by
  apply (Commits.write_update extending _).mono
  rintro _ _ _ _ ⟨_, same, told⟩
  exact ⟨same, told⟩

theorem openEntry_commits {writer : Write (Option LengthSlot)}
    {writes : Nat → Option LengthSlot → Bytes → Prop} (extending : Write.Extends writer writes) :
    Commits session (openEntry writer) fun start _ after added => ∃ slot,
      after = { session with phase := .entry start slot } ∧ writes start slot added := by
  intro output
  have commits := @Commits.write_update _ session writer writes extending fun slot session =>
    { session with phase := .entry output.position slot }
  exact commits output

section
variable {start : Nat} {slot : LengthSlot} {output after : Output}

theorem closeEntry_false (wording : Wording) (slot : Option LengthSlot) :
    closeEntry wording false ⟨{ session with phase := .entry start slot }, output⟩ =
      .ok () ⟨{ session with phase := .entries }, output.cut start⟩ := rfl

theorem closeEntry_ok (wording : Wording) (closed : slot.close output = .ok () after) :
    closeEntry wording true ⟨{ session with phase := .entry start (some slot) }, output⟩ =
      .ok () ⟨{ session with phase := .entries, count := session.count + 1 }, after⟩ := by
  have kept : Write.atomicFrom start slot.close output = .ok () after := by
    simp only [Write.atomicFrom, closed]
  change (write (Write.atomicFrom start slot.close) >>= fun _ => countEntry) _ = _
  rw [Program.bind_ok (write_ok kept)]
  rfl

theorem closeEntry_error (wording : Wording) {error : EncodeError}
    (failed : slot.close output = .error error after) :
    closeEntry wording true ⟨{ session with phase := .entry start (some slot) }, output⟩ =
      .error error ⟨{ session with phase := .entries }, after.cut start⟩ := by
  have dropped : Write.atomicFrom start slot.close output = .error error (after.cut start) := by
    simp only [Write.atomicFrom, failed]
  change (write (Write.atomicFrom start slot.close) >>= fun _ => countEntry) _ = _
  rw [Program.bind_error (write_error dropped)]

end

/-! ## Whole containers -/

/-- A step that ends a container which accepts entries, with the number of entries in its place. -/
def Fills (ending : Drafting Unit) (width : Nat) : Prop :=
  ∀ {session : Session} {output : Output} {before added final : Bytes}, session.phase = .entries →
    output.toList = before ++ added → session.Seals width before.length added final →
    ∃ last after, ending ⟨session, output⟩ = .ok () ⟨last, after⟩ ∧
      after.capacity = output.capacity ∧ after.toList = before ++ final

theorem patchCount_ok {start width count : Nat} {phase : Phase} {output : Output}
    {before head tail : Bytes}
    (bytes : output.toList = before ++ (head ++ List.replicate width 0 ++ tail)) :
    ∃ after, write (Write.patchNumber (before.length + head.length) width count)
        ⟨⟨phase, start, some (before.length + head.length), count⟩, output⟩ =
          .ok () ⟨⟨phase, start, some (before.length + head.length), count⟩, after⟩ ∧
      after.capacity = output.capacity ∧
      after.toList = before ++ (head ++ Bytes.ofNat width count ++ tail) := by
  rw [← List.append_assoc, ← List.append_assoc] at bytes
  obtain ⟨after, patch, capacity, patched⟩ := Write.patch_ok (Bytes.ofNat width count) bytes (by simp)
  rw [List.length_append] at patch
  refine ⟨after, ?_, capacity, by rw [patched]; simp⟩
  simp only [write, Write.patchNumber, patch]

theorem finish_fills (wording : Wording) (width : Nat) : Fills (finish wording width true) width := by
  rintro ⟨_, start, countAt, count⟩ output before added final rfl bytes seals
  cases countAt with
  | none =>
    have same : final = added := seals
    exact ⟨_, output, rfl, rfl, same ▸ bytes⟩
  | some position =>
    obtain ⟨head, tail, rfl, rfl, rfl⟩ := seals
    obtain ⟨after, wrote, capacity, patched⟩ :=
      @patchCount_ok start width count .entries _ _ _ _ bytes
    refine ⟨⟨.done, start, some (before.length + head.length), count⟩, after, ?_, capacity, patched⟩
    change ((write _ >>= fun _ => enter .done) : Drafting Unit) _ = _
    rw [Program.bind_ok wrote]
    rfl

theorem whole_extends {opening body ending : Drafting Unit} {width : Nat} {post : Bytes → Prop}
    (fills : Fills ending width)
    (extending : Extends {} (opening >>= fun _ => body) fun start _ session added =>
      session.phase = .entries ∧ ∃ final, session.Seals width start added final ∧ post final) :
    Write.Extends (whole (opening >>= fun _ => body >>= fun _ => ending))
      fun _ _ final => post final := by
  intro output
  rw [← bind_assoc]
  unfold whole
  cases h : (opening >>= fun _ => body) ⟨{}, output⟩ with
  | error error after =>
    rw [Program.bind_error h]
    exact extending.of_error h
  | ok value middle =>
    obtain ⟨capacity, added, bytes, phase, final, seals, told⟩ := extending.of_ok h
    -- The number of entries is filled in behind what stood there before.
    rw [← Output.length_toList] at seals
    obtain ⟨last, after, ended, sameCapacity, afterBytes⟩ := fills phase bytes seals
    rw [Program.bind_ok h, ended]
    exact ⟨sameCapacity.trans capacity, final, afterBytes, told⟩

end Drafting

end MarketWire
