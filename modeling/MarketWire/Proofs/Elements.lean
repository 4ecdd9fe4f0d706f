import MarketWire.Proofs.Rows
import MarketWire.Proofs.Texts

/-! What elements hold, read back from written values.

An element that holds a written value is read as the integer, text or list of items from which the
value was made.
-/

set_option autoImplicit false

namespace MarketWire

theorem mapM_eq_ok {ε α β : Type} {f : α → Except ε β} {g : α → β} {values : List α}
    (h : ∀ value ∈ values, f value = .ok (g value)) : values.mapM f = .ok (values.map g) := by
  induction values with
  | nil => rfl
  | cons value rest ih =>
    rw [List.mapM_cons, h value List.mem_cons_self,
      ih fun other member => h other (List.mem_cons_of_mem _ member)]
    rfl

namespace Element

theorem signed?_int {bits : Nat} {n : Int64} (low : -2 ^ (bits - 1) ≤ n.toInt)
    (high : n.toInt < 2 ^ (bits - 1)) : signed? bits (.int n) = some n.toInt := by
  unfold signed? integer?
  change Option.filter _ (some n.toInt) = _
  rw [Option.filter_some, if_pos (by simp [low, high])]

theorem signed?_int16 (n : Int16) : signed? 16 (.int n.toInt64) = some n.toInt := by
  rw [← Int16.toInt_toInt64 n]
  exact signed?_int (Int16.toInt_toInt64 n ▸ n.le_toInt) (Int16.toInt_toInt64 n ▸ n.toInt_lt)

theorem unsigned?_eq_some {bits n : Nat} {value : Primitive} (small : n < 2 ^ 63)
    (high : n < 2 ^ bits) (held : value.toInt64 = .ok (.ofNat n)) :
    unsigned? bits value = some n := by
  -- Unsigned numbers are read by way of signed ones, in which they must fit.
  have same : (Int64.ofNat n).toInt = n := Int64.toInt_ofNat_of_lt small
  have bound : (n : Int) < 2 ^ bits := by exact_mod_cast high
  unfold unsigned? integer?
  rw [held]
  change Option.map _ (Option.filter _ (some (Int64.ofNat n).toInt)) = _
  rw [same, Option.filter_some, if_pos (by simp [bound])]
  rfl

theorem unsigned?_uint {bits : Nat} (few : bits < 64) {n : UInt64} (high : n.toNat < 2 ^ bits) :
    unsigned? bits (.uint n) = some n.toNat := by
  have most : 2 ^ bits ≤ 2 ^ 63 := Nat.pow_le_pow_right (by decide) (Nat.le_of_lt_succ few)
  have small : n.toNat < 2 ^ 63 := Nat.lt_of_lt_of_le high most
  exact unsigned?_eq_some small high (if_pos small)

theorem unsigned?_enum (n : UInt16) : unsigned? 16 (.enum n) = some n.toNat :=
  unsigned?_eq_some (Nat.lt_trans n.toNat_lt (by decide)) n.toNat_lt rfl

section
variable {element : ElementList.Entry}

theorem name_eq {text : String} (h : element.name = Bytes.ofString text) : name element = text := by
  unfold name ElementList.nameText
  rw [h, Utf8.decode_ofString]
  rfl

theorem value_eq_ok {held : Primitive} (h : element.value = .primitive held) :
    value element = .ok held := by
  unfold value
  rw [h]
  rfl

theorem signed_eq_ok {held : Primitive} {bits : Nat} {n : Int} (h : element.value = .primitive held)
    (known : signed? bits held = some n) : signed bits element = .ok n := by
  unfold signed
  rw [value_eq_ok h]
  change demand element (signed? bits held) = _
  rw [known]
  rfl

theorem unsigned_eq_ok {held : Primitive} {bits n : Nat} (h : element.value = .primitive held)
    (known : unsigned? bits held = some n) : unsigned bits element = .ok n := by
  unfold unsigned
  rw [value_eq_ok h]
  change demand element (unsigned? bits held) = _
  rw [known]
  rfl

theorem content?_reread (type : ByteType) (content : Bytes) :
    content? (Primitive.bytes type content).reread = some content := by
  cases content <;> rfl

theorem text_eq_ok {text : String} (h : element.value = .primitive (Primitive.ascii text).reread) :
    Element.text element = .ok text := by
  unfold Element.text
  rw [value_eq_ok h]
  change (demand element (content? (Primitive.ascii text).reread) >>= fun content =>
    .ok (textOf content)) = _
  rw [Primitive.ascii, content?_reread]
  change Except.ok (textOf (Bytes.ofString text)) = _
  rw [textOf_ofString]

theorem items_eq_ok {plan : ItemArray.Plan} {list : List Primitive}
    (h : element.value = .primitive (Cell.content (.items plan list)).reread)
    (uniform : plan.IsUniform) (fits : ItemArray.Fits plan list)
    (suits : ItemArray.Suits plan list) : items element = .ok (list.map Primitive.reread) := by
  -- The type of the items stands in front, so no array is blank.
  have filled : (Cell.content (.items plan list)).reread = .bytes .array (ItemArray.form plan list) :=
    rfl
  unfold items
  rw [value_eq_ok h, filled]
  change (Except.mapError _ (ItemArray.decode (ItemArray.form plan list)) >>= _) = _
  rw [ItemArray.decode_form uniform fits suits]
  change (list.map fun item => Except.ok item.reread).mapM _ = _
  rw [List.mapM_map]
  exact mapM_eq_ok fun _ _ => rfl

theorem itemsAs_eq_ok {α β : Type} {plan : ItemArray.Plan} {hold : Primitive → Option β}
    {values : List α} {item : α → Primitive} {meant : α → β}
    (h : element.value = .primitive (Cell.content (.items plan (values.map item))).reread)
    (uniform : plan.IsUniform) (fits : ItemArray.Fits plan (values.map item))
    (suits : ItemArray.Suits plan (values.map item))
    (holds : ∀ value ∈ values, hold (item value).reread = some (meant value)) :
    itemsAs hold element = .ok (values.map meant) := by
  unfold itemsAs
  rw [items_eq_ok h uniform fits suits, List.map_map]
  change List.mapM _ _ = _
  rw [List.mapM_map]
  apply mapM_eq_ok
  intro value member
  change demand element (hold (item value).reread) = _
  rw [holds value member]
  rfl

end

/-! ## Cells -/

section
variable {α : Type} (value : α) (title : String) (type : DataType)

@[simp] theorem name_element (column : Column α) : name (Column.element value column) = column.name :=
  name_eq rfl

@[simp] theorem text_element (own : α → String) :
    Element.text (Column.element value ⟨title, type, fun value => .value (.ascii (own value))⟩) =
      .ok (own value) :=
  text_eq_ok rfl

@[simp] theorem signed_element_int16 (own : α → Int16) :
    signed 16 (Column.element value ⟨title, type, fun value => .value (.int (own value).toInt64)⟩) =
      .ok (own value).toInt :=
  signed_eq_ok rfl (signed?_int16 _)

@[simp] theorem signed_element_int8 (own : α → Int8) :
    signed 8 (Column.element value ⟨title, type, fun value => .value (.int (own value).toInt64)⟩) =
      .ok (own value).toInt := by
  apply signed_eq_ok rfl
  rw [← Int8.toInt_toInt64 (own value)]
  exact signed?_int (Int8.toInt_toInt64 (own value) ▸ (own value).le_toInt)
    (Int8.toInt_toInt64 (own value) ▸ (own value).toInt_lt)

@[simp] theorem unsigned_element_uint16 (own : α → UInt16) :
    unsigned 16 (Column.element value ⟨title, type, fun value => .value (.uint (own value).toUInt64)⟩) =
      .ok (own value).toNat :=
  unsigned_eq_ok rfl (unsigned?_uint (by decide) (own value).toNat_lt)

@[simp] theorem unsigned_element_uint8 (own : α → UInt8) :
    unsigned 8 (Column.element value ⟨title, type, fun value => .value (.uint (own value).toUInt64)⟩) =
      .ok (own value).toNat :=
  unsigned_eq_ok rfl (unsigned?_uint (by decide) (own value).toNat_lt)

theorem itemsAs_element {β γ : Type} {plan : ItemArray.Plan} {list : α → List β}
    {item : β → Primitive} {meant : β → γ} (hold : Primitive → Option γ)
    (suits : (Cell.items plan ((list value).map item)).Suits type)
    (fits : (Cell.items plan ((list value).map item)).Fits type)
    (holds : ∀ own, hold (item own).reread = some (meant own)) :
    itemsAs hold
        (Column.element value ⟨title, type, fun value => .items plan ((list value).map item)⟩) =
      .ok ((list value).map meant) :=
  itemsAs_eq_ok rfl suits.uniform fits.2 suits.2.2.2 fun own _ => holds own

end

theorem readable_rowForm {α : Type} {columns : List (Column α)} {context : Context} {value : α}
    (knows : context.elementSet? 0 = some (Column.definition columns))
    (suits : ∀ column ∈ columns, (column.cell value).Suits column.type)
    (fits : ∀ column ∈ columns, (column.cell value).Fits column.type) :
    readable context (Column.rowForm columns value) = .ok (columns.map (Column.element value)) := by
  unfold readable
  rw [Column.decode_rowForm knows suits fits]
  refine congrArg Except.ok (List.filter_eq_self.mpr fun element member => ?_)
  obtain ⟨column, -, rfl⟩ := List.mem_map.mp member
  rfl

end Element

end MarketWire
