import MarketWire.Publication.Element

/-! Texts come back from their bytes.

The form of a character of several bytes starts with a byte that tells its length; with it and the
range of the second byte, the reader that replaces what is no text finds every character.
-/

set_option autoImplicit false

namespace MarketWire.Utf8

/-! ## Leading bytes -/

theorem lead?_two : ∀ top < 0x20, 2 ≤ top →
    lead? (UInt8.ofNat (top + 0xC0)) = some (2, 0x80, 0xBF) := by
  decide

theorem lead?_three : ∀ top < 0x10, lead? (UInt8.ofNat (top + 0xE0)) =
    some (3, if top = 0 then 0xA0 else 0x80, if top = 0xD then 0x9F else 0xBF) := by
  decide

theorem lead?_four : ∀ top < 5, lead? (UInt8.ofNat (top + 0xF0)) =
    some (4, if top = 0 then 0x90 else 0x80, if top = 4 then 0x8F else 0xBF) := by
  decide

theorem continued_succ (done missing bits : Nat) (small : bits < 0x40) (rest : Bytes) :
    continued done (missing + 1) (UInt8.ofNat (bits + 0x80) :: rest) =
      continued (done + 1) missing rest := by
  have inside : ∀ bits < 0x40, (0x80 ≤ UInt8.ofNat (bits + 0x80) &&
      UInt8.ofNat (bits + 0x80) ≤ 0xBF) = true := by decide
  rw [continued, if_pos (inside bits small)]

theorem piece_of_lead {top mark length bits : Nat} {low high : UInt8} (first : 0x80 ≤ top + mark)
    (byte : top + mark < 0x100) (lead : lead? (UInt8.ofNat (top + mark)) = some (length, low, high))
    (inside : low.toNat ≤ bits + 0x80 ∧ bits + 0x80 ≤ high.toNat) (rest : Bytes) :
    piece (UInt8.ofNat (top + mark)) (UInt8.ofNat (bits + 0x80) :: rest) =
      continued 2 (length - 2) rest := by
  have most := high.toNat_lt
  have second : (UInt8.ofNat (bits + 0x80)).toNat = bits + 0x80 :=
    UInt8.toNat_ofNat_of_lt (Nat.lt_of_le_of_lt inside.2 most)
  have large : ¬ UInt8.ofNat (top + mark) < 0x80 := by
    have same : (UInt8.ofNat (top + mark)).toNat = top + mark := UInt8.toNat_ofNat_of_lt byte
    rw [UInt8.lt_iff_toNat_lt, same]
    exact Nat.not_lt.mpr first
  unfold piece
  rw [if_neg large, lead]
  dsimp only
  rw [if_pos]
  simp only [Bool.and_eq_true, decide_eq_true_eq, UInt8.le_iff_toNat_le, second]
  exact inside

/-- The form of a character is the first piece of what starts with it. -/
theorem piece_encodeChar (c : Char) : ∃ first others, String.utf8EncodeChar c = first :: others ∧
    ∀ rest, piece first (others ++ rest) = .character (others.length + 1) := by
  have valid : c.val.toNat < 0xD800 ∨ (0xDFFF < c.val.toNat ∧ c.val.toNat < 0x110000) := c.valid
  unfold String.utf8EncodeChar
  generalize c.val.toNat = n at valid
  dsimp only
  -- One case for each length; the range of the second byte shuts out surrogates and what is too large.
  by_cases one : n ≤ 0x7F
  · rw [if_pos one]
    refine ⟨_, _, rfl, fun rest => ?_⟩
    have first : (UInt8.ofNat n).toNat = n :=
      UInt8.toNat_ofNat_of_lt (Nat.lt_of_le_of_lt one (by decide))
    unfold piece
    rw [if_pos]
    · rfl
    · rw [UInt8.lt_iff_toNat_lt, first]
      exact Nat.lt_succ_of_le one
  rw [if_neg one]
  by_cases two : n ≤ 0x7FF
  · rw [if_pos two]
    refine ⟨_, _, rfl, fun rest => ?_⟩
    have top : n / 64 % 0x20 < 0x20 := Nat.mod_lt _ (by decide)
    exact piece_of_lead (by omega) (by omega) (lead?_two _ top (by omega))
      ⟨Nat.le_add_left _ _, by change n % 0x40 + 0x80 ≤ 0xBF; omega⟩ rest
  rw [if_neg two]
  by_cases three : n ≤ 0xFFFF
  · rw [if_pos three]
    refine ⟨_, _, rfl, fun rest => ?_⟩
    have top : n / 4096 % 0x10 < 0x10 := Nat.mod_lt _ (by decide)
    refine (piece_of_lead (by omega) (by omega) (lead?_three _ top) ?_ _).trans ?_
    · constructor
      · split
        · change 0xA0 ≤ n / 64 % 0x40 + 0x80
          omega
        · exact Nat.le_add_left _ _
      · split
        · change n / 64 % 0x40 + 0x80 ≤ 0x9F
          omega
        · change n / 64 % 0x40 + 0x80 ≤ 0xBF
          omega
    · exact continued_succ _ _ _ (Nat.mod_lt _ (by decide)) _
  · rw [if_neg three]
    refine ⟨_, _, rfl, fun rest => ?_⟩
    have top : n / 262144 % 0x08 < 5 := by omega
    refine (piece_of_lead (by omega) (by omega) (lead?_four _ top) ?_ _).trans ?_
    · constructor
      · split
        · change 0x90 ≤ n / 4096 % 0x40 + 0x80
          omega
        · exact Nat.le_add_left _ _
      · split
        · change n / 4096 % 0x40 + 0x80 ≤ 0x8F
          omega
        · change n / 4096 % 0x40 + 0x80 ≤ 0xBF
          omega
    · exact (continued_succ _ _ _ (Nat.mod_lt _ (by decide)) _).trans
        (continued_succ _ _ _ (Nat.mod_lt _ (by decide)) _)

/-! ## Texts -/

theorem ofString_eq_flatMap (chars : List Char) :
    Bytes.ofString (.ofList chars) = chars.flatMap String.utf8EncodeChar := by
  unfold Bytes.ofString
  rw [String.toByteArray_ofList]
  simp [List.utf8Encode]

theorem decodeLossy_encodeChar (c : Char) (rest : Bytes) :
    decodeLossy (String.utf8EncodeChar c ++ rest) = c :: decodeLossy rest := by
  obtain ⟨first, others, form, piece⟩ := piece_encodeChar c
  have whole : decode (first :: others) = .ok (.ofList [c]) := by
    have same := ofString_eq_flatMap [c]
    rw [List.flatMap_singleton, form] at same
    exact same ▸ decode_ofString _
  rw [form, List.cons_append, decodeLossy, piece rest]
  simp [whole, Except.toOption]

theorem decodeLossy_ofString (text : String) :
    String.ofList (decodeLossy (Bytes.ofString text)) = text := by
  -- The induction is on the characters, each of which has a form of its own.
  suffices ∀ chars, decodeLossy (Bytes.ofString (.ofList chars)) = chars by
    have same := this text.toList
    rw [String.ofList_toList] at same
    rw [same, String.ofList_toList]
  intro chars
  rw [ofString_eq_flatMap]
  induction chars with
  | nil => simp [decodeLossy]
  | cons c rest ih => rw [List.flatMap_cons, decodeLossy_encodeChar, ih]

end MarketWire.Utf8

namespace MarketWire.Element

@[simp] theorem textOf_ofString (text : String) : textOf (Bytes.ofString text) = text :=
  Utf8.decodeLossy_ofString text

end MarketWire.Element
