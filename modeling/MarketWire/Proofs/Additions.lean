import MarketWire.Proofs.Commuting
import MarketWire.Proofs.Growth
import MarketWire.Proofs.Layouts

/-! Definitions and tables that are added in any order.

A definition may meet the table that refers to its field, or the table may meet the definition. Either way they must
agree on the acronym if both give one, and either way the same is known of the field at the end.
-/

set_option autoImplicit false

namespace MarketWire.Dictionary

open Program (Commutes Guarded)

variable {dictionary : Dictionary} {field : FieldDefinition} {references : List (Int16 × String)}

/-! ## Steps -/

theorem guarded_addField (field : FieldDefinition) :
    Guarded (addField field) (·.Admits field) (·.insertField field) :=
  ⟨⟨admits_of_ok, fun ⟨admits, same⟩ => same ▸ addField_ok admits⟩⟩

theorem guarded_addTable {values : List (UInt16 × EnumLabel)} {table : EnumTable}
    (made : EnumTable.ofList (references.map Prod.fst) values = .ok table) :
    Guarded (addTable references values) (·.Accepts references) (·.insertTable references table) := by
  refine ⟨fun {dictionary after} => ?_⟩
  constructor
  · intro added
    rcases addTable_cases dictionary references values with ⟨own, made', accepts, same⟩ | ⟨error, failed⟩
    · cases made.symm.trans made'
      cases same.symm.trans added
      exact ⟨accepts, rfl⟩
    · cases failed.symm.trans added
  · rintro ⟨accepts, rfl⟩
    exact addTable_ok made accepts

theorem addTable_fails {values : List (UInt16 × EnumLabel)} {error : DictionaryError}
    (failed : EnumTable.ofList (references.map Prod.fst) values = .error error) (dictionary : Dictionary)
    (value : Unit) (after : Dictionary) : addTable references values dictionary ≠ .ok value after := by
  intro added
  rcases addTable_cases dictionary references values with ⟨table, made, -⟩ | ⟨error', failed'⟩
  · cases failed.symm.trans made
  · cases failed'.symm.trans added

/-- Whatever commutes with all tables that can be added commutes with those that cannot be made as well. -/
theorem commutes_addTable {α : Type} {update : Update α} {values : List (UInt16 × EnumLabel)}
    (commutes : ∀ table, EnumTable.ofList (references.map Prod.fst) values = .ok table →
      Commutes update (addTable references values)) : Commutes update (addTable references values) := by
  cases made : EnumTable.ofList (references.map Prod.fst) values with
  | error error => exact (Commutes.of_fails (addTable_fails made) update).symm
  | ok table => exact commutes table made

/-! ## A definition and a table -/

/-- Fields to which a table may refer have none yet, so that only their definitions give acronyms. -/
theorem accepts_iff_definitions : dictionary.Accepts references ↔
    (references.map Prod.fst).Nodup ∧ (∀ reference ∈ references, reference.1 ∉ dictionary.links) ∧
      ∀ reference ∈ references, ∀ field ∈ dictionary.get? reference.1,
        reference.2 = "" ∨ field.acronym = reference.2 := by
  have acronymOf? {fid : Int16} (unlinked : fid ∉ dictionary.links) :
      dictionary.acronymOf? fid = (dictionary.get? fid).map (·.acronym) := by
    rw [Std.ExtTreeMap.mem_iff_isSome_getElem?, Option.not_isSome_iff_eq_none] at unlinked
    unfold Dictionary.acronymOf?
    rw [unlinked]
    exact Option.or_none
  constructor
  · rintro ⟨distinct, unlinked, acronyms⟩
    refine ⟨distinct, unlinked, fun reference member field defined => acronyms reference member _ ?_⟩
    rw [acronymOf? (unlinked reference member), defined]
    rfl
  · rintro ⟨distinct, unlinked, acronyms⟩
    refine ⟨distinct, unlinked, fun reference member known told => ?_⟩
    rw [acronymOf? (unlinked reference member)] at told
    obtain ⟨field, defined, rfl⟩ := Option.map_eq_some_iff.mp told
    exact acronyms reference member field defined

theorem Accepts.link_insertTable (accepts : dictionary.Accepts references) (table : EnumTable) {fid : Int16}
    {acronym : String} (member : (fid, acronym) ∈ references) :
    (dictionary.insertTable references table).links[fid]? = some ⟨acronym, dictionary.tables.size⟩ := by
  rcases getElem?_link references dictionary.tables.size dictionary.links fid with
    ⟨absent, -⟩ | ⟨own, again, found⟩
  · exact absurd (List.mem_map.mpr ⟨_, member, rfl⟩) absent
  · exact (accepts.acronym_eq member again) ▸ found

theorem admits_accepts_iff (dictionary : Dictionary) (field : FieldDefinition) (references : List (Int16 × String))
    (table : EnumTable) :
    dictionary.Admits field ∧ (dictionary.insertField field).Accepts references ↔
      dictionary.Accepts references ∧ (dictionary.insertTable references table).Admits field := by
  constructor
  · rintro ⟨admits, accepts⟩
    obtain ⟨distinct, unlinked, acronyms⟩ := accepts_iff_definitions.mp accepts
    have first : dictionary.Accepts references := by
      refine accepts_iff_definitions.mpr ⟨distinct, unlinked, fun reference member other defined => ?_⟩
      refine acronyms reference member other ?_
      rw [get?_insertField, if_neg]
      · exact defined
      · intro same
        rw [← same, admits.free] at defined
        cases defined
    refine ⟨first, admits.fid, admits.wireType, admits.free, fun link linked => ?_⟩
    rcases getElem?_link references dictionary.tables.size dictionary.links field.fid with
      ⟨-, kept⟩ | ⟨acronym, member, found⟩
    · exact admits.acronym link (kept.symm.trans linked)
    · obtain rfl := Option.some.inj (found.symm.trans linked)
      refine (acronyms _ member field ?_).imp_right Eq.symm
      rw [get?_insertField, if_pos rfl]
      rfl
  · rintro ⟨accepts, admits⟩
    obtain ⟨distinct, unlinked, acronyms⟩ := accepts_iff_definitions.mp accepts
    refine ⟨⟨admits.fid, admits.wireType, admits.free, fun link linked => ?_⟩,
      accepts_iff_definitions.mpr ⟨distinct, unlinked, fun reference member other defined => ?_⟩⟩
    · rcases getElem?_link references dictionary.tables.size dictionary.links field.fid with
        ⟨-, kept⟩ | ⟨acronym, member, -⟩
      · exact admits.acronym link (kept.trans linked)
      · have free := unlinked _ member
        rw [Std.ExtTreeMap.mem_iff_isSome_getElem?, linked] at free
        exact absurd rfl free
    · rw [get?_insertField] at defined
      split at defined
      case isTrue same =>
        cases defined
        have linked := accepts.link_insertTable table member
        exact (admits.acronym _ (same ▸ linked)).imp_right Eq.symm
      case isFalse => exact acronyms reference member other defined

theorem addField_commutes_addTable (field : FieldDefinition) (references : List (Int16 × String))
    (values : List (UInt16 × EnumLabel)) : Commutes (addField field) (addTable references values) :=
  commutes_addTable fun table made => (guarded_addField field).commutes (guarded_addTable made)
    (fun dictionary => admits_accepts_iff dictionary field references table) fun _ => rfl

/-! ## Any order -/

inductive Addition where
  | field (field : FieldDefinition)
  | table (references : List (Int16 × String)) (values : List (UInt16 × EnumLabel))
  deriving DecidableEq

namespace Addition

def add : Addition → Update Unit
  | .field field => addField field
  | .table references values => addTable references values

def isField : Addition → Bool
  | .field _ => true
  | .table .. => false

end Addition

/-- Definitions and tables may be added in any order that keeps the order of the definitions and that of the tables:
if all are taken in one such order, all are taken in the others and make the same dictionary. -/
theorem add_interleaved {additions additions' : List Addition}
    (fields : additions.filter (·.isField) = additions'.filter (·.isField))
    (tables : additions.filter (!·.isField) = additions'.filter (!·.isField)) (dictionary after : Dictionary) :
    additions.forM Addition.add dictionary = .ok () after ↔ additions'.forM Addition.add dictionary = .ok () after := by
  refine Program.forM_eq_ok_iff_interleaved (fun first second isField isTable => ?_) fields tables
  cases first with
  | table references values => cases isField
  | field field =>
    cases second with
    | field other => cases isTable
    | table references values => exact addField_commutes_addTable field references values

/-- A table that gives one acronym and leaves another one open comes before, between and behind the definitions. -/
theorem add_interleaved_exchange :
    let table : Addition := .table [(4, "RDN_EXCHID"), (9, "")] [(1, ⟨[0x41], ""⟩)]
    let exchange : Addition := .field { fid := 4, acronym := "RDN_EXCHID", wireType := .enum }
    let venue : Addition := .field { fid := 9, acronym := "VENUE", wireType := .enum }
    ∃ after, [table, exchange, venue].forM Addition.add empty = .ok () after ∧
      [exchange, table, venue].forM Addition.add empty = .ok () after ∧
      [exchange, venue, table].forM Addition.add empty = .ok () after ∧
      after.size = 2 ∧ (after.enumLabel? 9 1).isSome := by
  intro table exchange venue
  have run : [table, exchange, venue].forM Addition.add empty = .ok () _ := Program.ok_after (by decide)
  exact ⟨_, run, (add_interleaved (by decide) (by decide) empty _).mp run,
    (add_interleaved (by decide) (by decide) empty _).mp run, by decide, by decide⟩

end MarketWire.Dictionary
