import MarketWire.Proofs.Iterators

/-! Standard entries do not depend on set definitions.

Let two readers of a record know the same types of fields. However their set definitions differ, and however
the set-defined entries come to an end, both are given the same standard entries behind these.
-/

set_option autoImplicit false

namespace MarketWire.Record

open Entries (Yields)

class TypedByFields (κ : Type) (Info Name : outParam Type) [format : RecordFormat κ Info Name] : Prop where
  typeOf_congr : ∀ {context other : Context}, context.fieldTypes = other.fieldTypes →
    format.typeOf context = format.typeOf other

instance : TypedByFields Int16 FieldList.Info Int16 where
  typeOf_congr {context other} same := by
    funext fid
    change (match context.fieldTypes with | none => _ | some types => _) =
      (match other.fieldTypes with | none => _ | some types => _)
    rw [same]

instance : TypedByFields String ElementList.Info Bytes where
  typeOf_congr _ := rfl

section
variable (κ : Type) {Info Name : Type} [format : RecordFormat κ Info Name]

/-- What a reader with a certain context is given: the set-defined entries, then the standard ones and then
nothing. Without a definition there is one marker with all bytes of the set-defined entries. -/
structure Reads (context : Context) (bytes : Bytes) (head : Head Info) (unread : Bytes)
    (standard : List (Entry Name)) : Prop where
  decoded : decode κ context bytes = .ok (head.content κ context standard)
  sets : Yields (Iterator.nextSet κ context) (head.iterator unread) (head.setEntries κ context)
  all : Yields (Iterator.next κ context) (head.iterator unread) (head.setEntries κ context ++ standard)
  undefined : ∀ {setId : UInt16} {block : Bytes}, head.setBlock? = some (setId, block) →
    format.findSet context setId = none →
    head.setEntries κ context = [.ofFault format.noName .noSetDefinition block]

end

variable {κ Info Name : Type} [format : RecordFormat κ Info Name]

theorem reads_of_opening (context : Context) {bytes unread : Bytes} {head : Head Info}
    (opened : opening κ bytes = .ok (head, unread)) :
    Reads κ context bytes head unread (Entries.read (step κ context) head.count unread) where
  decoded := by
    rw [decode_eq, opened]
    rfl
  sets := setEntries_yields head unread
  all := iterator_yields head unread
  undefined {setId block} told unknown := by
    unfold Head.setEntries setBlock
    rw [told]
    dsimp only
    rw [unknown]

theorem step_congr [typed : TypedByFields κ Info Name] {context other : Context}
    (same : context.fieldTypes = other.fieldTypes) : step κ context = step κ other := by
  have entries : standardEntry κ context = standardEntry κ other := by
    funext name code payload
    unfold standardEntry
    rw [typed.typeOf_congr same]
  funext unread
  unfold step
  rw [entries]

/-- Of a record that one reader accepts, each reader with the same types of fields is given the same standard
entries behind the set-defined ones of its own. -/
theorem standard_entries_agree [TypedByFields κ Info Name] {context : Context} (other : Context) {bytes : Bytes}
    {content : Content Info Name} (same : context.fieldTypes = other.fieldTypes)
    (accepted : decode κ context bytes = .ok content) :
    ∃ (head : Head Info) (unread : Bytes) (standard : List (Entry Name)),
      opening κ bytes = .ok (head, unread) ∧ content = head.content κ context standard ∧
        Reads κ context bytes head unread standard ∧ Reads κ other bytes head unread standard := by
  cases opened : opening κ bytes with
  | error error =>
    rw [decode_eq, opened] at accepted
    cases accepted
  | ok found =>
    obtain ⟨head, unread⟩ := found
    have reads := reads_of_opening (κ := κ) context opened
    have reads' := reads_of_opening (κ := κ) other opened
    rw [← step_congr same] at reads'
    have told : content = _ := Except.ok.inj (accepted.symm.trans reads.decoded)
    exact ⟨head, unread, _, rfl, told, reads, reads'⟩

/-- Two readers that know and do not know the set definition, of a field list and of an element list. -/
theorem standard_entries_agree_undefined :
    let fieldSets : Context := { localFieldSets := some ⟨[⟨0, #[⟨1, .int⟩]⟩]⟩ }
    let elementSets : Context := { localElementSets := some ⟨[⟨0, #[⟨"A", .int⟩]⟩]⟩ }
    (∃ head unread standard,
      opening Int16 [0x0A, 2, 1, 7, 0, 1, 0, 3, 1, 65] = .ok (head, unread) ∧
        standard = [.ofFault 3 .noDictionary [65]] ∧
        Reads Int16 fieldSets [0x0A, 2, 1, 7, 0, 1, 0, 3, 1, 65] head unread standard ∧
        Reads Int16 {} [0x0A, 2, 1, 7, 0, 1, 0, 3, 1, 65] head unread standard) ∧
    ∃ head unread standard,
      opening String [0x0A, 2, 1, 7, 0, 1, 1, 66, 3, 1, 9] = .ok (head, unread) ∧
        standard = [⟨[66], .int, .primitive (.int 9), [9]⟩] ∧
        Reads String elementSets [0x0A, 2, 1, 7, 0, 1, 1, 66, 3, 1, 9] head unread standard ∧
        Reads String {} [0x0A, 2, 1, 7, 0, 1, 1, 66, 3, 1, 9] head unread standard := by
  intro fieldSets elementSets
  constructor
  · have accepted : decode Int16 fieldSets [0x0A, 2, 1, 7, 0, 1, 0, 3, 1, 65] = .ok _ := rfl
    have same : fieldSets.fieldTypes = ({} : Context).fieldTypes := rfl
    obtain ⟨head, unread, standard, opened, told, reads, reads'⟩ := standard_entries_agree {} same accepted
    cases opened
    exact ⟨_, _, _, rfl, (List.cons.inj (congrArg Content.entries told)).2.symm, reads, reads'⟩
  · have accepted : decode String elementSets [0x0A, 2, 1, 7, 0, 1, 1, 66, 3, 1, 9] = .ok _ := rfl
    have same : elementSets.fieldTypes = ({} : Context).fieldTypes := rfl
    obtain ⟨head, unread, standard, opened, told, reads, reads'⟩ := standard_entries_agree {} same accepted
    cases opened
    exact ⟨_, _, _, rfl, (List.cons.inj (congrArg Content.entries told)).2.symm, reads, reads'⟩

end MarketWire.Record
