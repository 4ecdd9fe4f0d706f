import MarketWire.SetDefinition.Local
import MarketWire.Proofs.Frames

/-! Local set definitions, written and read back.

The keys of set definitions say by themselves where they end, and so do the definitions. Definitions
with different ids in range come back in the order in which they were written.
-/

set_option autoImplicit false

namespace MarketWire

class LawfulSetKey (κ : Type) [SetKey κ] where
  form : κ → Bytes
  Fits : κ → Prop
  writeEntry_extends : ∀ entry : SetEntry κ, Write.Extends (SetKey.writeEntry entry)
    fun _ _ added => added = form entry.key ++ [entry.type.code] ∧ Fits entry.key
  readKey_form : ∀ {key : κ}, Fits key → ∀ rest, SetKey.readKey (form key ++ rest) = .ok key rest

instance : LawfulSetKey Int16 where
  form key := Bytes.ofNat 2 key.toUInt16.toNat
  Fits _ := True
  writeEntry_extends _ := (Write.bytes_emits _).mono fun _ _ _ known => ⟨known, trivial⟩
  readKey_form {key} _ rest := by
    change Read.int16 _ = _
    unfold Read.int16
    rw [Program.bind_ok (Read.uint16_ofNat _ rest)]
    rfl

instance : LawfulSetKey String where
  form key := LengthForm.bits15.frame (Bytes.ofString key)
  Fits key := (Bytes.ofString key).length ≤ Varying.max15
  writeEntry_extends entry := by
    apply (Write.Extends.bind (Write.framed_extends .bits15 _) fun _ => Write.byte_emits _).mono
    rintro _ _ _ ⟨_, _, _, ⟨rfl, fits⟩, rfl, rfl⟩
    exact ⟨rfl, fits⟩
  readKey_form {key} fits rest := by
    change (Read.framed .bits15 >>= _) _ = _
    rw [Program.bind_ok (Read.framed_frame fits rest), Utf8.decode_ofString]
    rfl

theorem Read.setType_code {type : DataType} (declarable : type.setLayout?.isSome) (rest : Bytes) :
    Read.setType (type.code :: rest) = .ok type rest := by
  unfold Read.setType
  rw [Program.bind_ok (Read.byte_cons _ _), DataType.ofCode?_code, Option.filter_some,
    if_pos declarable]
  rfl

theorem Read.isSome_of_setType {type : DataType} {bytes rest : Bytes} (h : Read.setType bytes = .ok type rest) :
    type.setLayout?.isSome := by
  obtain ⟨code, _, -, h⟩ := Program.bind_eq_ok h
  cases declarable : (DataType.ofCode? code).filter (·.setLayout?.isSome) with
  | none =>
    rw [declarable] at h
    cases h
  | some type =>
    rw [declarable] at h
    cases h
    exact (Option.filter_eq_some_iff.mp declarable).2

theorem Read.times_flatMap {α : Type} {reader : Read α} {form : α → Bytes} {values : List α}
    (reads : ∀ value ∈ values, ∀ rest, reader (form value ++ rest) = .ok value rest)
    (rest : Bytes) :
    Read.times reader values.length (values.flatMap form ++ rest) = .ok values rest := by
  induction values with
  | nil => rfl
  | cons value others ih =>
    have here := reads value List.mem_cons_self (others.flatMap form ++ rest)
    have behind := ih fun other member => reads other (List.mem_cons_of_mem _ member)
    rw [List.flatMap_cons, List.append_assoc]
    change (reader >>= _) _ = _
    rw [Program.bind_ok here, Program.bind_ok behind]
    rfl

theorem Read.times_eq_ok {α : Type} {reader : Read α} {holds : α → Prop}
    (told : ∀ {bytes rest value}, reader bytes = .ok value rest → holds value) {count : Nat} {bytes rest : Bytes}
    {values : List α} (h : Read.times reader count bytes = .ok values rest) :
    values.length = count ∧ ∀ value ∈ values, holds value := by
  induction count generalizing bytes values rest with
  | zero =>
    cases h
    exact ⟨rfl, nofun⟩
  | succ count ih =>
    obtain ⟨first, _, here, h⟩ := Program.bind_eq_ok h
    obtain ⟨others, _, behind, h⟩ := Program.bind_eq_ok h
    cases h
    obtain ⟨length, all⟩ := ih behind
    exact ⟨congrArg (· + 1) length, List.forall_mem_cons.mpr ⟨told here, all⟩⟩

namespace SetDefinition

variable {κ : Type} [SetKey κ] [key : LawfulSetKey κ]

def entryForm (entry : SetEntry κ) : Bytes := key.form entry.key ++ [entry.type.code]

def form (definition : SetDefinition κ) : Bytes :=
  Varying.form15 definition.id.toNat ++ [UInt8.ofNat definition.size]
    ++ definition.entries.toList.flatMap entryForm

def Fits (definition : SetDefinition κ) : Prop :=
  definition.id.toNat ≤ Varying.max15 ∧ definition.size ≤ 0xFF ∧
    ∀ entry ∈ definition.entries.toList, key.Fits entry.key

def IsDeclarable (definition : SetDefinition κ) : Prop :=
  ∀ entry ∈ definition.entries.toList, entry.type.setLayout?.isSome

theorem write_extends (definition : SetDefinition κ) :
    Write.Extends definition.write fun _ _ added => added = definition.form ∧ definition.Fits := by
  refine Write.Extends.ite (fun size => ?_) fun _ => Write.Extends.throw _
  have entries := Write.each_extends fun (entry : SetEntry κ) (_ : entry ∈ definition.entries.toList) =>
    key.writeEntry_extends entry
  apply (Write.Extends.bind (Varying.write15_extends _) fun _ =>
    Write.Emits.then_extends (Write.byte_emits _) fun _ => entries).mono
  rintro _ _ _ ⟨_, _, _, ⟨rfl, id⟩, ⟨_, ⟨rfl, fits⟩, rfl⟩, rfl⟩
  refine ⟨?_, id, size, fits⟩
  simp only [form, List.append_assoc]
  rfl

theorem readEntry_form {entry : SetEntry κ} (fits : key.Fits entry.key)
    (declarable : entry.type.setLayout?.isSome) (rest : Bytes) :
    readEntry (entryForm entry ++ rest) = .ok entry rest := by
  unfold readEntry entryForm
  rw [List.append_assoc, Program.bind_ok (key.readKey_form fits _)]
  change (Read.setType >>= _) (entry.type.code :: rest) = _
  rw [Program.bind_ok (Read.setType_code declarable rest)]
  rfl

theorem read_form {definition : SetDefinition κ} (fits : definition.Fits)
    (declarable : definition.IsDeclarable) (rest : Bytes) :
    read (definition.form ++ rest) = .ok definition rest := by
  obtain ⟨id, size, keys⟩ := fits
  have entries : Read.times readEntry definition.entries.toList.length
      (definition.entries.toList.flatMap entryForm ++ rest) = .ok definition.entries.toList rest :=
    Read.times_flatMap (fun entry member =>
      readEntry_form (keys entry member) (declarable entry member)) rest
  have count : (UInt8.ofNat definition.size).toNat = definition.entries.toList.length :=
    UInt8.toNat_ofNat_of_lt (Nat.lt_succ_of_le size)
  unfold read form
  rw [List.append_assoc, List.append_assoc, List.singleton_append,
    Program.bind_ok (Varying.read15_form15 id _)]
  change (Read.byte >>= _) (UInt8.ofNat definition.size :: _) = _
  rw [Program.bind_ok (Read.byte_cons _ _), count, Program.bind_ok entries]
  change EStateM.Result.ok _ rest = _
  rw [UInt16.ofNat_toNat, Array.toArray_toList]

end SetDefinition

namespace LocalSets

variable {κ : Type}

def HasIds (sets : LocalSets κ) : Prop :=
  (∀ definition ∈ sets.definitions, definition.id ≤ maxId) ∧
    sets.definitions.Pairwise (·.id ≠ ·.id)

theorem HasIds.size_le {sets : LocalSets κ} (ids : sets.HasIds) : sets.size ≤ 16 := by
  -- There are no more ids than the range has, so one byte counts the definitions.
  have distinct : (sets.definitions.map (·.id.toNat)).Nodup := by
    refine List.pairwise_map.mpr (ids.2.imp fun different same => different ?_)
    exact UInt16.toNat_inj.mp same
  have inside : sets.definitions.map (·.id.toNat) ⊆ List.range 16 := by
    intro id member
    obtain ⟨definition, defined, rfl⟩ := List.mem_map.mp member
    have bound : definition.id.toNat ≤ 15 := UInt16.le_iff_toNat_le.mp (ids.1 definition defined)
    exact List.mem_range.mpr (Nat.lt_succ_of_le bound)
  simpa [size] using distinct.length_le_of_subset inside

variable [SetKey κ] [LawfulSetKey κ]

def form (sets : LocalSets κ) : Bytes :=
  [0, UInt8.ofNat sets.size] ++ sets.definitions.flatMap SetDefinition.form

theorem contents_extends (sets : LocalSets κ) :
    Write.Extends (do
      Write.byte 0
      Write.byte (UInt8.ofNat sets.size)
      Write.each SetDefinition.write sets.definitions)
      fun _ _ added => added = sets.form ∧ ∀ definition ∈ sets.definitions, definition.Fits := by
  have definitions := Write.each_extends fun (definition : SetDefinition κ)
    (_ : definition ∈ sets.definitions) => definition.write_extends
  refine ((Write.byte_emits _).then_extends fun _ => (Write.byte_emits _).then_extends fun _ =>
    definitions).mono ?_
  rintro _ _ _ ⟨_, ⟨_, ⟨rfl, fits⟩, rfl⟩, rfl⟩
  exact ⟨rfl, fits⟩

theorem encode_extends (sets : LocalSets κ) :
    Write.Extends sets.encode fun _ _ added => sets.definitions ≠ [] ∧ added = sets.form ∧
      ∀ definition ∈ sets.definitions, definition.Fits := by
  refine Write.Extends.ite (fun _ => Write.Extends.throw _) fun filled => ?_
  exact sets.contents_extends.atomic.mono fun _ _ _ told => ⟨by simpa using filled, told⟩

theorem encode_error {sets : LocalSets κ} {output left : Output} {error : EncodeError}
    (failed : sets.encode output = .error error left) : left = output := by
  unfold encode at failed
  split at failed
  case isTrue =>
    cases failed
    rfl
  case isFalse => exact sets.contents_extends.atomic_error failed

/-- Definitions whose ids are not taken are added one after another. -/
theorem readInto_flatMap {before : LocalSets κ} {definitions : List (SetDefinition κ)}
    (ids : HasIds ⟨before.definitions ++ definitions⟩)
    (fits : ∀ definition ∈ definitions, definition.Fits ∧ definition.IsDeclarable) (rest : Bytes) :
    readInto before definitions.length (definitions.flatMap SetDefinition.form ++ rest) =
      .ok ⟨before.definitions ++ definitions⟩ rest := by
  induction definitions generalizing before with
  | nil =>
    rw [List.append_nil]
    rfl
  | cons definition others ih =>
    obtain ⟨fit, declarable⟩ := fits definition List.mem_cons_self
    have here := SetDefinition.read_form fit declarable (others.flatMap SetDefinition.form ++ rest)
    have inRange : ¬ maxId < definition.id :=
      UInt16.not_lt.mpr (ids.1 definition (by simp))
    -- The ids before and behind are known to differ all at once, so none is taken yet.
    have free : before.get? definition.id = none := by
      apply List.find?_eq_none.mpr
      intro other member
      have different := (List.pairwise_append.mp ids.2).2.2 other member definition List.mem_cons_self
      simpa using different
    have added : before.add definition = .ok ⟨before.definitions ++ [definition]⟩ := by
      unfold add
      rw [if_neg inRange, free]
      rfl
    have split : before.definitions ++ definition :: others =
        (before.definitions ++ [definition]) ++ others := by simp
    rw [split] at ids ⊢
    have behind := ih ids fun other member => fits other (List.mem_cons_of_mem _ member)
    rw [List.flatMap_cons, List.append_assoc]
    change (SetDefinition.read >>= _) _ = _
    rw [Program.bind_ok here, added]
    exact behind

theorem read_form {sets : LocalSets κ} (filled : sets.definitions ≠ []) (ids : sets.HasIds)
    (fits : ∀ definition ∈ sets.definitions, definition.Fits ∧ definition.IsDeclarable)
    (rest : Bytes) : read (sets.form ++ rest) = .ok sets rest := by
  have few := ids.size_le
  have count : (UInt8.ofNat sets.size).toNat = sets.definitions.length :=
    UInt8.toNat_ofNat_of_lt (show sets.size < 256 by omega)
  have nonzero : UInt8.ofNat sets.size ≠ 0 := by
    intro zero
    rw [zero] at count
    exact filled (List.length_eq_zero_iff.mp count.symm)
  unfold read form
  rw [List.append_assoc]
  have flags : Read.skip 1 ([0, UInt8.ofNat sets.size] ++
      (sets.definitions.flatMap SetDefinition.form ++ rest)) =
        .ok () (UInt8.ofNat sets.size :: (sets.definitions.flatMap SetDefinition.form ++ rest)) := rfl
  rw [Program.bind_ok flags, Program.bind_ok (Read.byte_cons _ _), if_neg nonzero, count]
  exact @readInto_flatMap _ _ _ empty _ ids fits rest

theorem decode_form {sets : LocalSets κ} (filled : sets.definitions ≠ []) (ids : sets.HasIds)
    (fits : ∀ definition ∈ sets.definitions, definition.Fits ∧ definition.IsDeclarable) :
    decode sets.form = .ok sets := by
  exact Read.all_front (read_form filled ids fits)

end LocalSets

end MarketWire
