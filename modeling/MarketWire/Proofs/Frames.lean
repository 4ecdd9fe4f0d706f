import Mathlib.Algebra.Group.Int.Defs
import Mathlib.Algebra.Group.Nat.Defs
import MarketWire.Proofs.Writing

/-! Numbers of varying length and byte strings behind their length, written and read back.

Each written form says by itself where it ends, so a reader takes exactly the form and leaves
whatever stands behind it.
-/

set_option autoImplicit false

namespace MarketWire

namespace Bytes

theorem toNat_ofNat_mod (width n : Nat) : toNat (ofNat width n) = n % 256 ^ width := by
  induction width generalizing n with
  | zero => simp [ofNat, toNat, Nat.mod_one]
  | succ width ih =>
    have last : (UInt8.ofNat n).toNat = n % 256 := by simp
    rw [ofNat, toNat_append_singleton, ih, last, Nat.pow_succ, Nat.mul_comm (256 ^ width) 256,
      Nat.mod_mul]
    omega

theorem toNat_ofNat {width n : Nat} (h : n < 256 ^ width) : toNat (ofNat width n) = n := by
  rw [toNat_ofNat_mod, Nat.mod_eq_of_lt h]

theorem ofNat_succ_eq_cons (width n : Nat) :
    ofNat (width + 1) n = UInt8.ofNat (n / 256 ^ width) :: ofNat width n := by
  induction width generalizing n with
  | zero => simp [ofNat]
  | succ width ih =>
    rw [ofNat, ih, Nat.div_div_eq_div_mul, ← Nat.pow_succ', List.cons_append]
    rfl

theorem ofNat_add_mul (width n high : Nat) : ofNat width (n + high * 256 ^ width) = ofNat width n := by
  induction width generalizing n high with
  | zero => rfl
  | succ width ih =>
    -- The multiple vanishes from the lowest byte and stays a multiple for the bytes above it.
    have upper : (n + high * 256 ^ (width + 1)) / 256 = n / 256 + high * 256 ^ width := by
      rw [Nat.pow_succ, ← Nat.mul_assoc, Nat.add_mul_div_right _ _ (by decide)]
    have lower : UInt8.ofNat (n + high * 256 ^ (width + 1)) = UInt8.ofNat n := by
      apply UInt8.toNat_inj.mp
      rw [UInt8.toNat_ofNat', UInt8.toNat_ofNat', Nat.pow_succ, ← Nat.mul_assoc]
      exact Nat.add_mul_mod_self_right _ _ _
    rw [ofNat, ofNat, upper, lower, ih]

end Bytes

namespace Read

theorem byte_cons (first : UInt8) (rest : Bytes) : byte (first :: rest) = .ok first rest := rfl

theorem number_ofNat {width n : Nat} (h : n < 256 ^ width) (rest : Bytes) :
    number width (Bytes.ofNat width n ++ rest) = .ok n rest := by
  unfold number
  rw [Program.bind_ok (bytes_append (Bytes.length_ofNat width n) rest), Bytes.toNat_ofNat h]
  rfl

theorem uint16_ofNat (n : UInt16) (rest : Bytes) :
    uint16 (Bytes.ofNat 2 n.toNat ++ rest) = .ok n rest := by
  unfold uint16
  rw [Program.bind_ok (number_ofNat n.toNat_lt rest)]
  change EStateM.Result.ok (UInt16.ofNat n.toNat) rest = _
  rw [UInt16.ofNat_toNat]

theorem uint32_ofNat (n : UInt32) (rest : Bytes) :
    uint32 (Bytes.ofNat 4 n.toNat ++ rest) = .ok n rest := by
  unfold uint32
  rw [Program.bind_ok (number_ofNat n.toNat_lt rest)]
  change EStateM.Result.ok (UInt32.ofNat n.toNat) rest = _
  rw [UInt32.ofNat_toNat]

theorem uint64_ofNat (n : UInt64) (rest : Bytes) :
    uint64 (Bytes.ofNat 8 n.toNat ++ rest) = .ok n rest := by
  unfold uint64
  rw [Program.bind_ok (number_ofNat n.toNat_lt rest)]
  change EStateM.Result.ok (UInt64.ofNat n.toNat) rest = _
  rw [UInt64.ofNat_toNat]

theorem count_ofNat {n : Nat} (few : n ≤ 0xFFFF) (rest : Bytes) :
    ∃ count : UInt16, count.toNat = n ∧ uint16 (Bytes.ofNat 2 n ++ rest) = .ok count rest := by
  have same : (UInt16.ofNat n).toNat = n := UInt16.toNat_ofNat_of_lt (Nat.lt_succ_of_le few)
  refine ⟨.ofNat n, same, ?_⟩
  have number := uint16_ofNat (.ofNat n) rest
  rwa [same] at number

theorem when_false {α : Type} (reader : Read α) (unread : Bytes) :
    Read.when false reader unread = .ok none unread := rfl

theorem when_true {α : Type} {reader : Read α} {unread rest : Bytes} {value : α}
    (h : reader unread = .ok value rest) : Read.when true reader unread = .ok (some value) rest :=
  Program.map_ok h

theorem all_ok {α : Type} {reader : Read α} {bytes rest : Bytes} {value : α}
    (h : reader bytes = .ok value rest) : all reader bytes = .ok value := by
  unfold all EStateM.run
  rw [h]

theorem all_eq_ok {α : Type} {reader : Read α} {bytes : Bytes} {value : α} (h : all reader bytes = .ok value) :
    ∃ rest, reader bytes = .ok value rest := by
  unfold all EStateM.run at h
  split at h
  case h_1 rest found => exact ⟨rest, Except.ok.inj h ▸ found⟩
  case h_2 => cases h

theorem all_front {α : Type} {reader : Read α} {bytes : Bytes} {value : α}
    (h : ∀ rest, reader (bytes ++ rest) = .ok value rest) : all reader bytes = .ok value := by
  have alone := h []
  rw [List.append_nil] at alone
  exact all_ok alone

theorem ofExcept_eq_ok {α : Type} {result : Except DecodeError α} {value : α} {bytes rest : Bytes}
    (h : ofExcept result bytes = .ok value rest) : result = .ok value ∧ rest = bytes := by
  cases result with
  | ok other =>
    cases h
    exact ⟨rfl, rfl⟩
  | error error => cases h

theorem ofExcept_ok {α β : Type} {reader : Read β} {compute : β → Except DecodeError α}
    {unread rest : Bytes} {taken : β} {value : α} (reads : reader unread = .ok taken rest)
    (h : compute taken = .ok value) :
    (do ofExcept (compute (← reader)) : Read α) unread = .ok value rest := by
  rw [Program.bind_ok reads, h]
  rfl

end Read

namespace Varying

theorem read15_le {n : Nat} {bytes rest : Bytes} (h : read15 bytes = .ok n rest) : n ≤ max15 := by
  obtain ⟨first, _, -, h⟩ := Program.bind_eq_ok h
  have firstSmall := first.toNat_lt
  unfold max15
  dsimp only at h
  split at h
  case isTrue =>
    cases h
    omega
  case isFalse =>
    obtain ⟨second, _, -, h⟩ := Program.bind_eq_ok h
    have secondSmall := second.toNat_lt
    cases h
    omega

theorem read15_form15 {n : Nat} (h : n ≤ max15) (rest : Bytes) :
    read15 (form15 n ++ rest) = .ok n rest := by
  unfold form15
  by_cases short : n < 0x80
  · rw [if_pos short]
    have first : (UInt8.ofNat n).toNat = n := by simp; omega
    change read15 (UInt8.ofNat n :: rest) = _
    unfold read15
    rw [Program.bind_ok (Read.byte_cons _ _)]
    simp only [first, if_pos short]
    rfl
  · rw [if_neg short]
    have first : (UInt8.ofNat ((n + 0x8000) / 256)).toNat = n / 256 + 0x80 := by
      unfold max15 at h
      simp
      omega
    have second : (UInt8.ofNat (n + 0x8000)).toNat = n % 256 := by
      simp
    change read15 (UInt8.ofNat ((n + 0x8000) / 256) :: UInt8.ofNat (n + 0x8000) :: rest) = _
    unfold read15
    rw [Program.bind_ok (Read.byte_cons _ _)]
    simp only [first, if_neg (show ¬ n / 256 + 0x80 < 0x80 by omega)]
    rw [Program.bind_ok (Read.byte_cons _ _), second]
    change EStateM.Result.ok ((n / 256 + 0x80 - 0x80) * 256 + n % 256) rest = _
    congr 1
    omega

theorem read16_form16 {n : Nat} (h : n ≤ 0xFFFF) (rest : Bytes) :
    read16 (form16 n ++ rest) = .ok n rest := by
  unfold form16
  by_cases direct : n ≤ maxDirect
  · rw [if_pos direct]
    unfold maxDirect at direct
    have first : (UInt8.ofNat n).toNat = n := by simp; omega
    have plain : UInt8.ofNat n ≠ announces2 := by
      intro same
      rw [same] at first
      change 0xFE = n at first
      omega
    change read16 (UInt8.ofNat n :: rest) = _
    unfold read16
    rw [Program.bind_ok (Read.byte_cons _ _), if_neg plain, first]
    rfl
  · rw [if_neg direct]
    change read16 (announces2 :: (Bytes.ofNat 2 n ++ rest)) = _
    unfold read16
    rw [Program.bind_ok (Read.byte_cons _ _), if_pos rfl]
    exact Read.number_ofNat (by omega) rest

/-- The first byte of the 30-bit form tells how many bytes follow it and keeps the top of the
number. -/
theorem read30_marked {mark n further : Nat} (rest : Bytes) (aligned : mark % 0x40 = 0)
    (byte : mark < 256) (fits : n / 256 ^ further < 0x40)
    (length : ∀ top < 0x40, further30 (mark + top) = further) :
    read30 (Bytes.ofNat (further + 1) (n + mark * 256 ^ further) ++ rest) = .ok n rest := by
  have top : (n + mark * 256 ^ further) / 256 ^ further = mark + n / 256 ^ further := by
    rw [Nat.add_mul_div_right _ _ (Nat.pow_pos (by decide)), Nat.add_comm]
  have whole : n / 256 ^ further * 256 ^ further + n % 256 ^ further = n := by
    rw [Nat.mul_comm]
    exact Nat.div_add_mod n _
  rw [Bytes.ofNat_succ_eq_cons, Bytes.ofNat_add_mul, top, List.cons_append]
  -- Of the number only its top six bits matter for the first byte.
  generalize n / 256 ^ further = high at fits whole ⊢
  have first : (UInt8.ofNat (mark + high)).toNat = mark + high := by
    rw [UInt8.toNat_ofNat']
    omega
  have kept : (mark + high) % 0x40 = high := by omega
  unfold read30
  rw [Program.bind_ok (Read.byte_cons _ _), first, length high fits]
  change (Read.bytes further >>= _) _ = _
  rw [Program.bind_ok (Read.bytes_append (Bytes.length_ofNat further n) rest),
    Bytes.toNat_ofNat_mod, kept]
  change EStateM.Result.ok (high * 256 ^ further + n % 256 ^ further) rest = _
  rw [whole]

theorem read30_form30 {n : Nat} (h : n ≤ max30) (rest : Bytes) :
    read30 (form30 n ++ rest) = .ok n rest := by
  unfold max30 at h
  unfold form30
  by_cases one : n < 0x40
  · rw [if_pos one]
    exact @read30_marked 0 n 0 rest rfl (by omega) (by omega) (by decide)
  · rw [if_neg one]
    by_cases two : n < 0x4000
    · rw [if_pos two]
      exact @read30_marked 0x80 n 1 rest rfl (by omega) (by omega) (by decide)
    · rw [if_neg two]
      by_cases three : n < 0x400000
      · rw [if_pos three]
        exact @read30_marked 0x40 n 2 rest rfl (by omega) (by omega) (by decide)
      · rw [if_neg three]
        exact @read30_marked 0xC0 n 3 rest rfl (by omega) (by omega) (by decide)

theorem read32_form32 {n : Nat} (h : n ≤ 0xFFFFFFFF) (rest : Bytes) :
    read32 (form32 n ++ rest) = .ok n rest := by
  unfold form32
  by_cases direct : n ≤ maxDirect
  · rw [if_pos direct]
    unfold maxDirect at direct
    have first : (UInt8.ofNat n).toNat = n := by simp; omega
    have plain (announced : UInt8) (above : 0xFD < announced.toNat) : UInt8.ofNat n ≠ announced := by
      intro same
      rw [← same, first] at above
      omega
    change read32 (UInt8.ofNat n :: rest) = _
    unfold read32
    rw [Program.bind_ok (Read.byte_cons _ _), if_neg (plain announces2 (by decide)),
      if_neg (plain announces4 (by decide)), first]
    rfl
  · rw [if_neg direct]
    by_cases two : n ≤ 0xFFFF
    · rw [if_pos two]
      change read32 (announces2 :: (Bytes.ofNat 2 n ++ rest)) = _
      unfold read32
      rw [Program.bind_ok (Read.byte_cons _ _), if_pos rfl]
      exact Read.number_ofNat (by omega) rest
    · rw [if_neg two]
      change read32 (announces4 :: (Bytes.ofNat 4 n ++ rest)) = _
      unfold read32
      rw [Program.bind_ok (Read.byte_cons _ _), if_neg (by decide), if_pos rfl]
      exact Read.number_ofNat (by omega) rest

theorem write15_extends (n : Nat) :
    Write.Extends (write15 n) fun _ _ added => added = form15 n ∧ n ≤ max15 := by
  refine Write.Extends.ite (fun fits => ?_) fun _ => Write.Extends.throw _
  exact (Write.bytes_emits _).mono fun _ _ _ known => ⟨known, fits⟩

theorem write16_emits (n : Nat) : Write.Emits (write16 n) (form16 n) := Write.bytes_emits _

theorem write30_extends (n : Nat) :
    Write.Extends (write30 n) fun _ _ added => added = form30 n ∧ n ≤ max30 := by
  refine Write.Extends.ite (fun fits => ?_) fun _ => Write.Extends.throw _
  exact (Write.bytes_emits _).mono fun _ _ _ known => ⟨known, fits⟩

end Varying

/-! ## Frames -/

namespace LengthForm

def frame (form : LengthForm) (payload : Bytes) : Bytes := form.spell payload.length ++ payload

theorem read_spell {form : LengthForm} {n : Nat} (h : n ≤ form.max) (rest : Bytes) :
    form.read (form.spell n ++ rest) = .ok n rest := by
  cases form with
  | byte =>
    have fits : n ≤ 0xFF := h
    have first : (UInt8.ofNat n).toNat = n := by
      rw [UInt8.toNat_ofNat']
      omega
    change EStateM.Result.ok (UInt8.ofNat n).toNat rest = _
    rw [first]
  | bits15 => exact Varying.read15_form15 h rest
  | bits16 => exact Varying.read16_form16 h rest

theorem length_spell_le (form : LengthForm) (n : Nat) : (form.spell n).length ≤ form.reserved := by
  cases form with
  | byte => exact Nat.le_refl 1
  | bits15 =>
    change (Varying.form15 n).length ≤ 2
    unfold Varying.form15
    split <;> simp
  | bits16 =>
    change (Varying.form16 n).length ≤ 3
    unfold Varying.form16
    split <;> simp

theorem length_spell_pos (form : LengthForm) (n : Nat) : 0 < (form.spell n).length := by
  cases form with
  | byte => exact Nat.one_pos
  | bits15 =>
    change 0 < (Varying.form15 n).length
    unfold Varying.form15
    split <;> simp
  | bits16 =>
    change 0 < (Varying.form16 n).length
    unfold Varying.form16
    split <;> simp

theorem frame_ne_nil (form : LengthForm) (payload : Bytes) : form.frame payload ≠ [] := by
  have length := form.length_spell_pos payload.length
  intro empty
  rw [(List.append_eq_nil_iff.mp empty).1] at length
  exact Nat.lt_irrefl 0 length

end LengthForm

theorem Read.framed_frame {form : LengthForm} {payload : Bytes} (h : payload.length ≤ form.max)
    (rest : Bytes) : Read.framed form (form.frame payload ++ rest) = .ok payload rest := by
  unfold Read.framed LengthForm.frame
  rw [List.append_assoc, Program.bind_ok (LengthForm.read_spell h _)]
  exact Read.bytes_append rfl rest

theorem Read.framed15_length {payload bytes rest : Bytes} (h : Read.framed .bits15 bytes = .ok payload rest) :
    payload.length ≤ Varying.max15 := by
  obtain ⟨count, _, counted, h⟩ := Program.bind_eq_ok h
  obtain ⟨-, length⟩ := Read.bytes_eq_ok h
  exact length ▸ Varying.read15_le counted

theorem Write.framed_extends (form : LengthForm) (payload : Bytes) :
    Write.Extends (Write.framed form payload) fun _ _ added =>
      added = form.frame payload ∧ payload.length ≤ form.max := by
  refine Write.Extends.ite (fun fits => ?_) fun _ => Write.Extends.throw _
  have emits : Write.Emits _ ([] ++ (form.spell payload.length ++ payload)) :=
    (Write.ensure_emits (payload.length + (form.spell payload.length).length)).bind fun _ =>
      (Write.bytes_emits _).bind fun _ => Write.bytes_emits payload
  exact emits.mono fun _ _ _ known => ⟨known, fits⟩

theorem Read.when_frame {form : LengthForm} {payload? : Option Bytes}
    (fits : ∀ payload ∈ payload?, payload.length ≤ form.max) (rest : Bytes) :
    Read.when payload?.isSome (Read.framed form) (payload?.elim [] form.frame ++ rest) =
      .ok payload? rest := by
  cases payload? with
  | none => rfl
  | some payload => exact Read.when_true (Read.framed_frame (fits payload rfl) rest)

theorem Write.framed?_extends (form : LengthForm) (payload? : Option Bytes) :
    Write.Extends (match payload? with
        | some payload => Write.framed form payload
        | none => pure ()) fun _ _ added =>
      added = payload?.elim [] form.frame ∧ ∀ payload ∈ payload?, payload.length ≤ form.max := by
  cases payload? with
  | none => exact (Write.Emits.pure ()).mono fun _ _ _ none => ⟨none, nofun⟩
  | some payload =>
    apply (Write.framed_extends form payload).mono
    rintro _ _ _ ⟨rfl, fits⟩
    refine ⟨rfl, ?_⟩
    rintro _ ⟨⟩
    exact fits

namespace LengthSlot

theorem reserve_extends (form : LengthForm) :
    Write.Extends (reserve form) fun start slot added =>
      slot = ⟨start, form⟩ ∧ added = List.replicate form.reserved 0 := by
  apply (Write.Extends.bind (Write.reserve_extends _) fun _ => Write.Extends.pure _).mono
  rintro _ _ _ ⟨_, _, _, ⟨rfl, rfl⟩, ⟨rfl, rfl⟩, rfl⟩
  exact ⟨rfl, List.append_nil _⟩

theorem some_reserve_extends (form : LengthForm) :
    Write.Extends (some <$> reserve form) fun start slot added =>
      slot = some ⟨start, form⟩ ∧ added = List.replicate form.reserved 0 := by
  rw [← bind_pure_comp]
  apply (Write.Extends.bind (reserve_extends form) fun slot => Write.Extends.pure (some slot)).mono
  rintro _ _ _ ⟨_, _, _, ⟨rfl, rfl⟩, ⟨rfl, rfl⟩, rfl⟩
  exact ⟨rfl, List.append_nil _⟩

/-- Closing a slot behind which a payload stands leaves the frame of the payload in its place, or
everything as it is when the payload is too long. -/
theorem close_eq {form : LengthForm} {output : Output} {before payload : Bytes}
    (bytes : output.toList = before ++ List.replicate form.reserved 0 ++ payload) :
    (payload.length ≤ form.max ∧ ∃ after, close ⟨before.length, form⟩ output = .ok () after ∧
      after.capacity = output.capacity ∧ after.toList = before ++ form.frame payload) ∨
    (form.max < payload.length ∧ close ⟨before.length, form⟩ output =
      .error (.lengthOverflow payload.length form.max) output) := by
  have counted : payloadLength ⟨before.length, form⟩ output = .ok payload.length output := by
    change EStateM.Result.ok (output.position - before.length - form.reserved) output = _
    rw [← Output.length_toList, bytes]
    simp only [List.length_append, List.length_replicate]
    congr 1
    omega
  unfold close
  rw [Program.bind_ok counted]
  by_cases fits : payload.length ≤ form.max
  · rw [if_pos fits]
    have spelled := form.length_spell_le payload.length
    -- The room is split into the part that the length takes and the part that is given back.
    have split : output.toList = before ++ List.replicate (form.spell payload.length).length 0
        ++ (List.replicate (form.reserved - (form.spell payload.length).length) 0 ++ payload) := by
      rw [bytes, List.append_assoc, List.append_assoc, ← List.append_assoc (List.replicate _ _),
        List.replicate_append_replicate, Nat.add_sub_cancel' spelled]
    obtain ⟨patched, patch, capacity, patchedBytes⟩ :=
      Write.patch_ok (form.spell payload.length) split (List.length_replicate ..)
    rw [← List.append_assoc] at patchedBytes
    obtain ⟨after, shift, sameCapacity, afterBytes⟩ := Write.shiftLeft_ok patchedBytes
    rw [List.length_append, List.length_replicate] at shift
    refine .inl ⟨fits, after, ?_, sameCapacity.trans capacity, ?_⟩
    · exact (Program.bind_ok patch).trans shift
    · rw [afterBytes, List.append_assoc]
      rfl
  · rw [if_neg fits]
    exact .inr ⟨Nat.lt_of_not_le fits, rfl⟩

theorem around_extends (form : LengthForm) {writer : Write Unit} {post : Nat → Unit → Bytes → Prop}
    (extending : Write.Extends writer post) :
    Write.Extends (around form writer) fun start _ added => ∃ payload,
      post (start + form.reserved) () payload ∧ payload.length ≤ form.max ∧
        added = form.frame payload := by
  intro output
  unfold around
  cases reserved : reserve form output with
  | error error middle =>
    rw [Program.bind_error reserved]
    exact (reserve_extends form).of_error reserved
  | ok slot middle =>
    obtain ⟨capacity, room, bytes, rfl, rfl⟩ := (reserve_extends form).of_ok reserved
    have before : output.toList <+: middle.toList := bytes ▸ List.prefix_append _ _
    have position : middle.position = output.position + form.reserved := by
      rw [← Output.length_toList, bytes, List.length_append, List.length_replicate,
        Output.length_toList]
    rw [Program.bind_ok reserved]
    cases written : writer middle with
    | error error after =>
      obtain ⟨sameCapacity, kept⟩ := extending.of_error written
      rw [Program.bind_error written]
      exact ⟨sameCapacity.trans capacity, before.trans kept⟩
    | ok value last =>
      obtain ⟨sameCapacity, payload, payloadBytes, known⟩ := extending.of_ok written
      rw [Program.bind_ok written, ← Output.length_toList]
      rw [bytes] at payloadBytes
      rw [position] at known
      -- The slot is closed where it was reserved, so the frame takes its place.
      rcases close_eq payloadBytes with
        ⟨fits, after, closed, closedCapacity, closedBytes⟩ | ⟨-, closed⟩
      · rw [closed]
        refine ⟨closedCapacity.trans (sameCapacity.trans capacity), form.frame payload, closedBytes,
          payload, known, fits, rfl⟩
      · rw [closed]
        refine ⟨sameCapacity.trans capacity, ?_⟩
        rw [payloadBytes, List.append_assoc]
        exact List.prefix_append _ _

end LengthSlot

end MarketWire
