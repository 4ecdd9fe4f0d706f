import MarketWire.Proofs.LocalSets
import MarketWire.Proofs.Rooms

/-! Local set definitions that are added one after another, and those that are found in bytes.

A definition whose id is out of range or taken is refused and leaves the others as they are, so however many are added,
there are no more of them than ids. Definitions that are found in bytes are added in the same way. Besides, they fit
their forms and declare no type that a set may not declare, so they can be written wherever there is room and come back.
-/

set_option autoImplicit false

namespace MarketWire

/-- Keys that take exactly the room of their forms, and that are found only where they can be written. -/
class ExactSetKey (κ : Type) [SetKey κ] extends LawfulSetKey κ where
  writeEntry_prints : ∀ entry : SetEntry κ, Fits entry.key →
    Write.Prints (SetKey.writeEntry entry) (form entry.key ++ [entry.type.code])
  fits_of_readKey : ∀ {key : κ} {bytes rest : Bytes}, SetKey.readKey bytes = .ok key rest → Fits key

instance : ExactSetKey Int16 where
  writeEntry_prints _ _ := Write.bytes_prints _
  fits_of_readKey _ := trivial

instance : ExactSetKey String where
  writeEntry_prints _ fits := (Write.framed_prints fits).bind fun _ => Write.bytes_prints _
  fits_of_readKey {key bytes rest} h := by
    obtain ⟨payload, _, framed, h⟩ := Program.bind_eq_ok h
    obtain ⟨decoded, -⟩ := Read.ofExcept_eq_ok h
    cases text : Utf8.decode payload with
    | error fault =>
      rw [text] at decoded
      cases decoded
    | ok own =>
      rw [text] at decoded
      cases decoded
      change (Bytes.ofString key).length ≤ Varying.max15
      rw [Utf8.ofString_of_decode text]
      exact Read.framed15_length framed

variable {κ : Type}

namespace SetDefinition

variable [SetKey κ] [key : ExactSetKey κ]

theorem write_prints {definition : SetDefinition κ} (fits : definition.Fits) :
    Write.Prints definition.write definition.form := by
  obtain ⟨id, size, keys⟩ := fits
  have entries := Write.each_prints fun entry member => key.writeEntry_prints entry (keys entry member)
  unfold write form Varying.write15
  rw [if_pos size, if_pos id, List.append_assoc]
  exact (Write.bytes_prints _).bind fun _ => (Write.bytes_prints _).bind fun _ => entries

theorem fits_of_readEntry {entry : SetEntry κ} {bytes rest : Bytes} (h : readEntry bytes = .ok entry rest) :
    key.Fits entry.key ∧ entry.type.setLayout?.isSome := by
  obtain ⟨own, _, keyFound, h⟩ := Program.bind_eq_ok h
  obtain ⟨type, _, typeFound, h⟩ := Program.bind_eq_ok h
  cases h
  exact ⟨key.fits_of_readKey keyFound, Read.isSome_of_setType typeFound⟩

theorem fits_of_read {definition : SetDefinition κ} {bytes rest : Bytes} (h : read bytes = .ok definition rest) :
    definition.Fits ∧ definition.IsDeclarable := by
  obtain ⟨id, _, idFound, h⟩ := Program.bind_eq_ok h
  obtain ⟨count, _, -, h⟩ := Program.bind_eq_ok h
  obtain ⟨entries, _, entriesFound, h⟩ := Program.bind_eq_ok h
  cases h
  have inRange := Varying.read15_le idFound
  obtain ⟨length, all⟩ := Read.times_eq_ok fits_of_readEntry entriesFound
  have known : (UInt16.ofNat id).toNat = id := UInt16.toNat_ofNat_of_lt (Nat.lt_of_le_of_lt inRange (by decide))
  have few : entries.length ≤ 0xFF := length ▸ Nat.le_of_lt_succ count.toNat_lt
  have inForm : (UInt16.ofNat id).toNat ≤ Varying.max15 := Nat.le_trans (Nat.le_of_eq known) inRange
  exact ⟨⟨inForm, few, fun entry member => (all entry member).1⟩, fun entry member => (all entry member).2⟩

end SetDefinition

namespace LocalSets

/-! ## Additions -/

theorem add_eq_ok {sets more : LocalSets κ} {definition : SetDefinition κ} (h : sets.add definition = .ok more) :
    definition.id ≤ maxId ∧ sets.get? definition.id = none ∧ more = ⟨sets.definitions ++ [definition]⟩ := by
  unfold add at h
  split at h
  case isTrue => cases h
  case isFalse inRange =>
    split at h
    case isTrue => cases h
    case isFalse free =>
      cases h
      exact ⟨UInt16.not_lt.mp inRange, Option.not_isSome_iff_eq_none.mp free, rfl⟩

/-- The sets after an attempt to add a definition, which leaves them as they are where it is refused. -/
def offer (sets : LocalSets κ) (definition : SetDefinition κ) : LocalSets κ :=
  match sets.add definition with
  | .ok more => more
  | .error _ => sets

theorem hasIds_empty : (empty : LocalSets κ).HasIds := ⟨nofun, List.Pairwise.nil⟩

theorem HasIds.add {sets more : LocalSets κ} {definition : SetDefinition κ} (ids : sets.HasIds)
    (added : sets.add definition = .ok more) : more.HasIds := by
  obtain ⟨inRange, free, rfl⟩ := add_eq_ok added
  constructor
  · rintro other member
    rcases List.mem_append.mp member with before | last
    · exact ids.1 other before
    · exact List.mem_singleton.mp last ▸ inRange
  · refine List.pairwise_append.mpr ⟨ids.2, List.pairwise_singleton _ _, fun other before last member same => ?_⟩
    obtain rfl := List.mem_singleton.mp member
    have different := List.find?_eq_none.mp free other before
    exact different (beq_iff_eq.mpr same)

theorem HasIds.offer {sets : LocalSets κ} (ids : sets.HasIds) (definition : SetDefinition κ) :
    (sets.offer definition).HasIds := by
  unfold LocalSets.offer
  split
  case h_1 more added => exact ids.add added
  case h_2 => exact ids

theorem HasIds.foldl_offer {sets : LocalSets κ} (ids : sets.HasIds) (definitions : List (SetDefinition κ)) :
    (definitions.foldl LocalSets.offer sets).HasIds := by
  induction definitions generalizing sets with
  | nil => exact ids
  | cons definition others ih => exact ih (ids.offer definition)

/-! ## Sets that are found -/

section
variable [SetKey κ] [key : ExactSetKey κ]

def IsWritable (sets : LocalSets κ) : Prop :=
  ∀ definition ∈ sets.definitions, definition.Fits ∧ definition.IsDeclarable

theorem encode_prints {sets : LocalSets κ} (filled : sets.definitions ≠ []) (writable : sets.IsWritable) :
    Write.Prints sets.encode sets.form := by
  have definitions := Write.each_prints fun (definition : SetDefinition κ)
    (member : definition ∈ sets.definitions) => SetDefinition.write_prints (writable definition member).1
  unfold encode form
  rw [if_neg (by simp [filled])]
  exact ((Write.bytes_prints [0]).bind fun _ => (Write.bytes_prints [_]).bind fun _ => definitions).atomic

/-- Definitions that are found are added to those before them, or the reader fails. -/
theorem readInto_eq_ok {before sets : LocalSets κ} {count : Nat} {bytes rest : Bytes} (ids : before.HasIds)
    (writable : before.IsWritable) (h : readInto before count bytes = .ok sets rest) :
    sets.HasIds ∧ sets.IsWritable ∧ sets.size = before.size + count := by
  induction count generalizing before bytes with
  | zero =>
    cases h
    exact ⟨ids, writable, rfl⟩
  | succ count ih =>
    obtain ⟨definition, left, found, h⟩ := Program.bind_eq_ok h
    obtain ⟨more, _, added, h⟩ := Program.bind_eq_ok h
    obtain ⟨added, -⟩ := Read.ofExcept_eq_ok added
    have ids' := ids.add added
    obtain ⟨-, -, rfl⟩ := add_eq_ok added
    have all : IsWritable ⟨before.definitions ++ [definition]⟩ := by
      intro other member
      rcases List.mem_append.mp member with here | last
      · exact writable other here
      · exact List.mem_singleton.mp last ▸ SetDefinition.fits_of_read found
    obtain ⟨foundIds, foundAll, counted⟩ := ih ids' all h
    have more : size ⟨before.definitions ++ [definition]⟩ = before.size + 1 := List.length_append
    exact ⟨foundIds, foundAll, by omega⟩

theorem decode_eq_ok {sets : LocalSets κ} {bytes : Bytes} (h : decode bytes = .ok sets) :
    sets.definitions ≠ [] ∧ sets.HasIds ∧ sets.IsWritable := by
  obtain ⟨rest, h⟩ := Read.all_eq_ok h
  obtain ⟨_, _, -, h⟩ := Program.bind_eq_ok h
  obtain ⟨count, _, -, h⟩ := Program.bind_eq_ok h
  split at h
  case isTrue => cases h
  case isFalse nonzero =>
    obtain ⟨ids, writable, size⟩ := readInto_eq_ok hasIds_empty nofun h
    refine ⟨fun none => nonzero (UInt8.toNat_inj.mp ?_), ids, writable⟩
    have counted : sets.size = count.toNat := size.trans (Nat.zero_add _)
    rw [← counted]
    exact congrArg List.length none

/-! ## Sets that are carried -/

/-- Sets that a message carries: there are no more of them than ids, what is written of them gives them back, and where
they are not written nothing is. -/
structure IsCarried (sets : LocalSets κ) : Prop where
  ids : sets.HasIds
  few : sets.size ≤ 16
  returns : (∀ definition ∈ sets.definitions, definition.IsDeclarable) →
    ∀ {output after : Output}, sets.encode output = .ok () after →
      ∃ added, after.toList = output.toList ++ added ∧ ∀ rest, decode (added ++ rest) = .ok sets
  leaves : ∀ {output left : Output} {error : EncodeError}, sets.encode output = .error error left → left = output

theorem HasIds.isCarried {sets : LocalSets κ} (ids : sets.HasIds) : sets.IsCarried where
  ids := ids
  few := ids.size_le
  returns declarable output after written := by
    obtain ⟨-, added, bytes, filled, rfl, fits⟩ := sets.encode_extends.of_ok written
    have writable : sets.IsWritable := fun definition member => ⟨fits definition member, declarable definition member⟩
    exact ⟨_, bytes, fun rest => Read.all_ok (read_form filled ids writable rest)⟩
  leaves failed := encode_error failed

theorem isCarried_of_decode {sets : LocalSets κ} {bytes : Bytes} (found : decode bytes = .ok sets) :
    sets.IsCarried ∧ ∃ form, Write.Prints sets.encode form ∧ ∀ rest, decode (form ++ rest) = .ok sets := by
  obtain ⟨filled, ids, writable⟩ := decode_eq_ok found
  exact ⟨ids.isCarried, sets.form, encode_prints filled writable, fun rest =>
    Read.all_ok (read_form filled ids writable rest)⟩

end

/-- Whatever definitions are added, for field lists or for element lists, those that are not refused are carried. So are
those that are found in any bytes, and these are written wherever there is room for their form. -/
theorem sets_are_carried :
    ((∀ definitions : List (SetDefinition Int16), (definitions.foldl offer empty).IsCarried) ∧
      ∀ (bytes : Bytes) (sets : LocalSets Int16), decode bytes = .ok sets →
        sets.IsCarried ∧ ∃ form, Write.Prints sets.encode form ∧ ∀ rest, decode (form ++ rest) = .ok sets) ∧
    (∀ definitions : List (SetDefinition String), (definitions.foldl offer empty).IsCarried) ∧
      ∀ (bytes : Bytes) (sets : LocalSets String), decode bytes = .ok sets →
        sets.IsCarried ∧ ∃ form, Write.Prints sets.encode form ∧ ∀ rest, decode (form ++ rest) = .ok sets :=
  ⟨⟨fun definitions => (hasIds_empty.foldl_offer definitions).isCarried, fun _ _ => isCarried_of_decode⟩,
    fun definitions => (hasIds_empty.foldl_offer definitions).isCarried, fun _ _ => isCarried_of_decode⟩

/-- Of four definitions one has a taken id and one has none in range. The other two are carried, and so is one that is
found with an id of two bytes. -/
theorem sets_are_carried_two :
    let elements : LocalSets String :=
      [⟨15, #[⟨"BID", .real⟩, ⟨"", .int2⟩]⟩, ⟨15, #[]⟩, ⟨16, #[]⟩, ⟨0, #[]⟩].foldl offer empty
    let fields : LocalSets Int16 := ⟨[⟨3, #[⟨-1, .real⟩]⟩]⟩
    elements.size = 2 ∧ (∃ after added, elements.encode (.empty 13) = .ok () after ∧ after.toList = added ∧
      ∀ rest, decode (added ++ rest) = .ok elements) ∧
    decode [9, 1, 0x80, 3, 1, 0xFF, 0xFF, 8, 7] = .ok fields ∧
      ∃ form, Write.Prints fields.encode form ∧ ∀ rest, decode (form ++ rest) = .ok fields := by
  intro elements fields
  have carried := sets_are_carried.2.1 [⟨15, #[⟨"BID", .real⟩, ⟨"", .int2⟩]⟩, ⟨15, #[]⟩, ⟨16, #[]⟩, ⟨0, #[]⟩]
  have ran : Program.succeeds elements.encode (.empty 13) := by decide +kernel
  obtain ⟨_, after, written⟩ := Program.exists_of_succeeds ran
  have all : elements.definitions = [⟨15, #[⟨"BID", .real⟩, ⟨"", .int2⟩]⟩, ⟨0, #[]⟩] := rfl
  have declarable : ∀ definition ∈ elements.definitions, definition.IsDeclarable := by
    rw [all]
    simp [SetDefinition.IsDeclarable, DataType.setLayout?]
  obtain ⟨added, bytes, back⟩ := carried.returns declarable written
  have found : decode [9, 1, 0x80, 3, 1, 0xFF, 0xFF, 8, 7] = .ok fields := rfl
  exact ⟨rfl, ⟨after, added, written, bytes, back⟩, found, (sets_are_carried.1.2 _ _ found).2⟩

end LocalSets

end MarketWire
