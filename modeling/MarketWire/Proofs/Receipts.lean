import MarketWire.Proofs.Editions
import MarketWire.Proofs.Summaries

/-! What receivers of parts have in common.

A receiver demands rows that are element lists, applies the elements of the summary if there is one,
and reads the rows with the definition of the columns that came with them.
-/

set_option autoImplicit false

namespace MarketWire

namespace Column

variable {α : Type} {columns : List (Column α)}

theorem decode_encodedDefinition {encoded : Bytes} (h : encodedDefinition columns = .ok encoded)
    (declarable : ∀ column ∈ columns, column.type.setLayout?.isSome) :
    LocalSets.decode encoded = .ok ⟨[definition columns]⟩ := by
  obtain ⟨filled, rfl, fits⟩ := (LocalSets.encode_extends _).of_toBytes h
  refine LocalSets.decode_form filled ⟨?_, List.pairwise_singleton _ _⟩ ?_
  · intro set member
    rw [List.mem_singleton.mp member]
    change (0 : UInt16) ≤ LocalSets.maxId
    decide
  · intro set member
    refine ⟨fits set member, ?_⟩
    rw [List.mem_singleton.mp member]
    intro entry inside
    obtain ⟨column, member, rfl⟩ : ∃ column ∈ columns, ⟨column.name, column.type⟩ = entry := by
      simpa [definition] using inside
    exact declarable column member

def context (columns : List (Column α)) : Context :=
  { localElementSets := some ⟨[definition columns]⟩ }

theorem context_knows : (context columns).elementSet? 0 = some (definition columns) := rfl

end Column

namespace Verbosity

theorem ne_info {verbosity : Verbosity} (tells : verbosity.includes .minimal) : verbosity ≠ .info := by
  rintro rfl
  cases tells

end Verbosity

namespace Summary

theorem lift_ok {α σ : Type} (value : α) (state : σ) :
    lift (.ok value) state = .ok value state := rfl

theorem name_entry (element : String × Primitive) : Element.name (entry element) = element.1 :=
  Element.name_eq rfl

theorem checkKind_entry (kind : DictionaryKind) :
    checkKind kind (entry (kindElement kind)) = .ok () := by
  cases kind <;> rfl

theorem id_entry (own : Int32) : id (entry (idElement own)) = .ok own := by
  have held : Element.signed? 32 (.int own.toInt64) = some own.toInt := by
    rw [← Int32.toInt_toInt64 own]
    exact Element.signed?_int (Int32.toInt_toInt64 own ▸ own.le_toInt)
      (Int32.toInt_toInt64 own ▸ own.toInt_lt)
  unfold id
  rw [Element.signed_eq_ok rfl held]
  change Except.ok (Int32.ofInt own.toInt) = _
  rw [Int32.ofInt_toInt]

theorem text_entry (name text : String) : Element.text (entry (name, .ascii text)) = .ok text :=
  Element.text_eq_ok rfl

section
variable {β σ : Type} {state : σ}

theorem checkKind_ok (kind : DictionaryKind) (state : σ) :
    lift (checkKind kind (entry (kindElement kind))) state = .ok () state := by
  rw [checkKind_entry]
  rfl

theorem id_bind (own : Int32) (next : Int32 → EStateM DictionaryError σ β) :
    (lift (id (entry (idElement own))) >>= next) state = next own state := by
  rw [id_entry]
  exact Program.bind_ok (lift_ok own state)

theorem text_bind (name text : String) (next : String → EStateM DictionaryError σ β) :
    (lift (Element.text (entry (name, .ascii text))) >>= next) state = next text state := by
  rw [text_entry]
  exact Program.bind_ok (lift_ok text state)

end

end Summary

/-! ## Maps that fill up -/

section
variable {κ ν : Type} [Ord κ] [Std.TransOrd κ] [DecidableEq κ] {whole : κ → Option ν}

theorem getElem?_insert_first [Std.LawfulEqOrd κ] {map : Std.ExtTreeMap κ ν} {first : κ}
    {rest : List κ} {value : ν}
    (lacks : ∀ key, map[key]? = if key ∈ first :: rest then none else whole key)
    (absent : first ∉ rest) (held : whole first = some value) (key : κ) :
    (map.insert first value)[key]? = if key ∈ rest then none else whole key := by
  rw [Std.ExtTreeMap.getElem?_insert]
  by_cases same : first = key
  · subst same
    rw [if_pos (Std.LawfulEqCmp.compare_eq_iff_eq.mpr rfl), if_neg absent, held]
  · rw [if_neg (by rwa [Std.LawfulEqCmp.compare_eq_iff_eq]), lacks key]
    have others : key ∈ first :: rest ↔ key ∈ rest := by simp [Ne.symm same]
    simp only [others]

theorem getElem?_empty_listed {listed : List κ} (all : ∀ key, (whole key).isSome → key ∈ listed)
    (key : κ) :
    (∅ : Std.ExtTreeMap κ ν)[key]? = if key ∈ listed then none else whole key := by
  rw [Std.ExtTreeMap.getElem?_empty]
  by_cases member : key ∈ listed
  · rw [if_pos member]
  · rw [if_neg member]
    have unknown : ¬ (whole key).isSome := fun known => member (all key known)
    exact (Option.not_isSome_iff_eq_none.mp unknown).symm

end

theorem Dictionary.checkId_ok {dictionary : Dictionary} {id : Int32}
    (agrees : dictionary.id = 0 ∨ dictionary.id = id) :
    checkId id true dictionary = .ok () { dictionary with id } := by
  -- An id is refused only if both sides have one and they differ.
  have sound : ¬ (id ≠ 0 ∧ dictionary.id ≠ 0 ∧ id ≠ dictionary.id) :=
    fun ⟨_, known, other⟩ => agrees.elim known fun same => other same.symm
  unfold checkId
  rw [Program.get_bind, if_neg sound]
  by_cases unset : id = 0
  · have same : dictionary.id = id := agrees.elim (fun own => own.trans unset.symm) (·)
    rw [if_neg (by simp [unset]), ← same]
    rfl
  · rw [if_pos ⟨rfl, unset⟩]
    rfl

namespace Edition

variable {α β σ : Type} {edition : Edition α} {source : Part.Source β} {definition : Bytes}
  {isFirst : Bool} {state : σ}

def header (edition : Edition α) (definition summary : Bytes) (isFirst : Bool) (count : Nat) :
    Table.Header :=
  (edition.partPlan definition isFirst).readHeader (if isFirst then summary else []) count

theorem checkRows_header (summary : Bytes) (count : Nat) :
    (Summary.checkRows (edition.header definition summary isFirst count) :
      EStateM DictionaryError σ Unit) = pure () := rfl

/-- Only the first part has a summary to apply. -/
theorem applyEach_header {elements : List (String × Primitive)} (count : Nat)
    (plain : ∀ element ∈ elements, element.2.isPlain) (fits : Summary.Fits elements)
    (apply : ElementList.Entry → EStateM DictionaryError σ Unit) :
    Summary.applyEach apply (edition.header definition (Summary.form elements) isFirst count) =
      if isFirst then (elements.map Summary.entry).forM apply else pure () := by
  cases isFirst with
  | false => rfl
  | true =>
    change (Summary.lift (Element.readable {} (Summary.form elements)) >>= _) = _
    rw [Summary.readable_form plain fits]
    rfl

theorem rowContext_header (summary : Bytes) (count : Nat)
    (defined : Column.encodedDefinition edition.columns = .ok definition)
    (declarable : ∀ column ∈ edition.columns, column.type.setLayout?.isSome) :
    (Summary.rowContext (edition.header definition summary isFirst count) :
      EStateM DictionaryError σ Context) = pure (Column.context edition.columns) := by
  have sets : (edition.header definition summary isFirst count).elementSets =
      some (.ok ⟨[Column.definition edition.columns]⟩) :=
    congrArg some (Column.decode_encodedDefinition defined declarable)
  unfold Summary.rowContext
  rw [sets]
  rfl

variable (edition) in
/-- A receiver of a part applies the elements of the summary, if there is one, and reads the rows with
the columns of the edition. -/
theorem takeIn_ok {γ δ : Type} {table : Except DecodeError γ} {content : γ}
    {elements : List (String × Primitive)} {count : Nat} {middle : σ} (header : γ → Table.Header)
    (apply : ElementList.Entry → EStateM DictionaryError σ Unit)
    (next : Context → γ → EStateM DictionaryError σ δ)
    (defined : Column.encodedDefinition edition.columns = .ok definition)
    (declarable : ∀ column ∈ edition.columns, column.type.setLayout?.isSome)
    (plain : ∀ element ∈ elements, element.2.isPlain) (fits : Summary.Fits elements)
    (decoded : table = .ok content)
    (headed : header content = edition.header definition (Summary.form elements) isFirst count)
    (applied : (if isFirst then (elements.map Summary.entry).forM apply else pure ()) state =
      .ok () middle) :
    (do
      let content ← Summary.lift (table.mapError .decode)
      Summary.checkRows (header content)
      Summary.applyEach apply (header content)
      let context ← Summary.rowContext (header content)
      next context content) state = next (Column.context edition.columns) content middle := by
  rw [decoded]
  change (Summary.checkRows (header content) >>= fun _ => Summary.applyEach apply (header content) >>=
    fun _ => Summary.rowContext (header content) >>= fun context => next context content) state = _
  rw [headed, checkRows_header, applyEach_header _ plain fits, rowContext_header _ _ defined declarable]
  change ((if isFirst then (elements.map Summary.entry).forM apply else pure ()) >>= fun _ =>
    next (Column.context edition.columns) content) state = _
  rw [Program.bind_ok applied]

theorem series_of_takes {summary : Bytes} {items taken left : List β} {part : Part}
    (takes : Part.Takes source (edition.partPlan definition isFirst) (if isFirst then summary else [])
      items part taken left)
    (unlabelled : ∀ item, source.label item = []) :
    Series.decode part.bytes = .ok ⟨edition.header definition summary isFirst taken.length,
      taken.map fun item => .container .elementList (source.form item)⟩ := by
  have rows : source.rowForm = fun item => LengthForm.bits16.frame (source.form item) := by
    funext item
    rw [Part.Source.rowForm, unlabelled, List.nil_append]
  have hasPayload : DataType.elementList ≠ .noData := by decide
  rw [takes.bytes, rows]
  exact Series.decode_form takes.header hasPayload takes.few fun item member =>
    (takes.rows item member).2

theorem vector_of_takes {summary : Bytes} {items taken left : List β} {part : Part}
    {index : β → UInt32}
    (takes : Part.Takes source (edition.partPlan definition isFirst) (if isFirst then summary else [])
      items part taken left)
    (labelled : ∀ item, source.label item =
      [Vector.Action.set.code] ++ Varying.form30 (index item).toNat)
    (indices : ∀ item, (index item).toNat ≤ Varying.max30) :
    Vector.decode part.bytes = .ok ⟨edition.header definition summary isFirst taken.length,
      taken.map fun item => ⟨(index item).toNat, some .set, none,
        .container .elementList (source.form item)⟩⟩ := by
  have rows : source.rowForm = fun item =>
      Vector.entryForm (index item) .set (source.form item) := by
    funext item
    rw [Part.Source.rowForm, labelled]
    rfl
  have hasPayload : DataType.elementList ≠ .noData := by decide
  rw [takes.bytes, rows]
  exact Vector.decode_form takes.header hasPayload rfl takes.few (fun item _ => indices item)
    fun item member => (takes.rows item member).2

end Edition

end MarketWire
