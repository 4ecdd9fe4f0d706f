import MarketWire.Proofs.Writers

/-! Ways of adding an entry.

An entry is added with its encoded payload, or it is opened, its payload is appended and it is closed, or
it is added with a value that encodes to the payload. For an entry that carries a payload the three come
to the same. For one that carries none they do not: the payload is left out only where it comes with the
entry, and a value always stands behind its length.
-/

set_option autoImplicit false

namespace MarketWire.ContainerPlan

open Labelled

def addInPlace (plan : ContainerPlan) (label : plan.Label) (payload : Bytes) : Drafting Unit := do
  plan.openEntry label
  Drafting.write (Write.bytes payload)
  plan.closeEntry true

def labelOf? : (plan : ContainerPlan) → plan.Key → Primitive → Option plan.Label
  | .fieldList _, fid, _ => some fid
  | .elementList _, name, value => some (name, value.dataType)
  | .itemArray _, _, _ => none
  | .series _, key, _ | .vector _, key, _ | .filterList _, key, _ => nomatch key

structure Adds (before after : Draft) (entry : Bytes) : Prop where
  session : after.session = { before.session with count := before.session.count + 1 }
  bytes : after.output.toList = before.output.toList ++ entry

theorem Adds.bytes_eq_iff {before first second : Draft} {entry other : Bytes}
    (adds : Adds before first entry) (addsOther : Adds before second other) :
    second.output.toList = first.output.toList ↔ other = entry := by
  rw [adds.bytes, addsOther.bytes]
  exact List.append_right_inj _

variable {plan : ContainerPlan} {label : plan.Label} {payload : Bytes} {before after : Draft}

theorem add_adds (added : plan.add label payload before = .ok () after) : before.session.phase = .entries ∧
    Adds before after (plan.labelForm label ++
      payloadForm (plan.carries label) (keptPayload (plan.carries label) payload)) := by
  obtain ⟨-, entry, bytes, phase, session, rfl⟩ := (add_commits label payload).of_ok added
  exact ⟨phase, session, bytes⟩

/-- The bytes of an entry whose payload is appended in place. Behind the label of an entry that carries
none they stay as they are. -/
def inPlaceForm (plan : ContainerPlan) (label : plan.Label) (payload : Bytes) : Bytes :=
  plan.labelForm label ++ if plan.carries label then LengthForm.bits16.frame payload else payload

theorem addInPlace_adds (added : plan.addInPlace label payload before = .ok () after) :
    Adds before after (plan.inPlaceForm label payload) := by
  obtain ⟨⟨current, start, countAt, count⟩, output⟩ := before
  obtain ⟨_, ⟨_, middle⟩, begun, added⟩ := Program.bind_eq_ok added
  obtain ⟨_, ⟨_, last⟩, appended, closed⟩ := Program.bind_eq_ok added
  obtain ⟨-, _, labelled, phase, rfl, rfl⟩ := (openEntry_commits label).of_ok begun
  obtain rfl : current = .entries := phase
  obtain ⟨-, _, written, rfl, same⟩ := (Drafting.bytes_commits payload).of_ok appended
  have written : last.toList = output.toList ++
      (plan.labelForm label ++ payloadRoom (plan.carries label) ++ payload) := by
    rw [written, labelled, same, List.append_assoc]
  obtain ⟨wording, eq⟩ := plan.closeEntry_eq true
  rw [eq, opened, ← Output.length_toList] at closed
  unfold inPlaceForm
  cases carried : plan.carries label with
  | false =>
    rw [carried] at closed written
    cases closed
    exact ⟨rfl, by simpa [payloadRoom] using written⟩
  | true =>
    rw [carried] at closed written
    have filled : true = false → payload = [] := fun impossible => absurd impossible (by decide)
    rcases @closeEntry_commits ⟨.entries, start, countAt, count⟩ _ _ _ _ wording true filled written with
      ⟨kept, run, bytes, -⟩ | ⟨error, dropped, run, -⟩
    · rw [run] at closed
      cases closed
      exact ⟨rfl, bytes⟩
    · rw [run] at closed
      cases closed

theorem addValue_adds {key : plan.Key} {value : Primitive} (labelled : plan.labelOf? key value = some label)
    (accepts : before.session.phase = .entries) (added : plan.addValue key value before = .ok () after) :
    Adds before after (plan.labelForm label ++ LengthForm.bits16.frame value.payload) := by
  have behind : ¬ plan.FillsSet before.session := by
    cases plan with
    | fieldList | elementList =>
      rintro ⟨written, slot, phase⟩
      rw [accepts] at phase
      cases phase
    | _ => exact id
  obtain ⟨-, _, bytes, -, session, rfl⟩ := (addValue_commits key value behind).of_ok added
  cases plan with
  | fieldList | elementList =>
    cases labelled
    exact ⟨session, bytes⟩
  | itemArray => cases labelled
  | series | vector | filterList => exact nomatch key

/-- The three ways of adding an entry count it once. They leave the same bytes if the entry carries a
payload. If it carries none, an entry in place leaves the same bytes as a whole one only without a
payload, and a value never does. -/
theorem ways_agree_iff {whole : Draft} (added : plan.add label payload before = .ok () whole) :
    (∀ inPlace, plan.addInPlace label payload before = .ok () inPlace →
      inPlace.session = whole.session ∧
        (inPlace.output.toList = whole.output.toList ↔ plan.carries label ∨ payload = [])) ∧
      ∀ key value capacity after, plan.labelOf? key value = some label →
        Write.toBytes capacity value.encode = .ok payload →
        plan.addValue key value before = .ok () after →
          after.session = whole.session ∧
            (after.output.toList = whole.output.toList ↔ plan.carries label) := by
  obtain ⟨accepts, adds⟩ := add_adds added
  constructor
  · intro inPlace written
    have inPlaceAdds := addInPlace_adds written
    refine ⟨inPlaceAdds.session.trans adds.session.symm, ?_⟩
    rw [adds.bytes_eq_iff inPlaceAdds, inPlaceForm, List.append_right_inj]
    cases plan.carries label <;> simp [payloadForm, keptPayload]
  · intro key value capacity after labelled encoded addedValue
    have valueAdds := addValue_adds labelled accepts addedValue
    obtain rfl := value.encode_emits.of_toBytes encoded
    refine ⟨valueAdds.session.trans adds.session.symm, ?_⟩
    rw [adds.bytes_eq_iff valueAdds, List.append_right_inj]
    cases plan.carries label with
    | true => simp [payloadForm, keptPayload]
    | false => simpa [payloadForm] using LengthForm.frame_ne_nil .bits16 value.payload

def begun (plan : ContainerPlan) : Draft := Program.after plan.start ⟨{}, .empty 40⟩

theorem ways_agree_iff_size :
    let plan : ContainerPlan := .elementList {}
    ∃ whole inPlace after,
      plan.add ("SIZE", .int) [5] plan.begun = .ok () whole ∧
      plan.addInPlace ("SIZE", .int) [5] plan.begun = .ok () inPlace ∧
      plan.addValue "SIZE" (.int 5) plan.begun = .ok () after ∧
      inPlace.output.toList = whole.output.toList ∧ after.output.toList = whole.output.toList := by
  intro plan
  obtain ⟨_, whole, added⟩ := Program.exists_of_succeeds
    (show Program.succeeds (plan.add ("SIZE", .int) [5]) plan.begun by decide +kernel)
  obtain ⟨_, inPlace, written⟩ := Program.exists_of_succeeds
    (show Program.succeeds (plan.addInPlace ("SIZE", .int) [5]) plan.begun by decide +kernel)
  obtain ⟨_, after, value⟩ := Program.exists_of_succeeds
    (show Program.succeeds (plan.addValue "SIZE" (.int 5)) plan.begun by decide +kernel)
  have carries : plan.carries ("SIZE", .int) := rfl
  obtain ⟨inPlaces, values⟩ := ways_agree_iff added
  have encoded : Write.toBytes 9 (Primitive.int 5).encode = .ok [5] := rfl
  exact ⟨whole, inPlace, after, added, written, value, (inPlaces _ written).2.mpr (.inl carries),
    (values _ _ 9 _ rfl encoded value).2.mpr carries⟩

/-- The ways do not agree for all entries: what is appended to an entry that clears a row stays, and a
value of the type without a payload stands behind its length. -/
theorem ways_differ :
    (¬ ∀ (plan : ContainerPlan) (label : plan.Label) (payload : Bytes),
      Program.succeeds (plan.add label payload) plan.begun →
      Program.succeeds (plan.addInPlace label payload) plan.begun →
        (Program.after (plan.addInPlace label payload) plan.begun).output.toList =
          (Program.after (plan.add label payload) plan.begun).output.toList) ∧
      ¬ ∀ (plan : ContainerPlan) (key : plan.Key) (value : Primitive) (label : plan.Label) (payload : Bytes),
        plan.labelOf? key value = some label → Write.toBytes 40 value.encode = .ok payload →
        Program.succeeds (plan.add label payload) plan.begun →
        Program.succeeds (plan.addValue key value) plan.begun →
          (Program.after (plan.addValue key value) plan.begun).output.toList =
            (Program.after (plan.add label payload) plan.begun).output.toList := by
  constructor
  · intro all
    have same := all (.vector { rowType := .fieldList }) ⟨7, .clear, none⟩ [0xAA] (by decide +kernel)
      (by decide +kernel)
    exact absurd same (by decide +kernel)
  · intro all
    have same := all (.elementList {}) "N" (.blank .noData) ("N", .noData) [] rfl rfl
      (by decide +kernel) (by decide +kernel)
    exact absurd same (by decide +kernel)

end MarketWire.ContainerPlan
