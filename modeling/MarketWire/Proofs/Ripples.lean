import MarketWire.Proofs.Links

/-! What the ripples of a file change.

Ripples are looked up in the names that a dictionary has when all lines are read. They change the targets of the
fields for which they are given and nothing else, so that it does not matter when a table is added.
-/

set_option autoImplicit false

namespace MarketWire.Dictionary

def ripple (names : Std.ExtTreeMap String Int16) (definitions : Std.ExtTreeMap Int16 FieldDefinition)
    (request : Int16 × String) : Std.ExtTreeMap Int16 FieldDefinition :=
  match names[request.2]? with
  | some target => definitions.modify request.1 fun field => { field with rippleTo := target }
  | none => definitions

theorem resolveRipples_eq (ripples : List (Int16 × String)) (dictionary : Dictionary) :
    resolveRipples ripples dictionary = { dictionary with
      definitions := ripples.foldl (ripple (dictionary.names.getD dictionary.buildNames)) dictionary.definitions } := by
  unfold resolveRipples
  generalize dictionary.names.getD dictionary.buildNames = names
  refine List.foldl_hom (fun definitions => { dictionary with definitions }) fun definitions request => ?_
  obtain ⟨fid, acronym⟩ := request
  unfold ripple
  dsimp only
  cases names[acronym]? <;> rfl

section
variable (names : Std.ExtTreeMap String Int16) (definitions : Std.ExtTreeMap Int16 FieldDefinition)
  {ripples : List (Int16 × String)} {fid : Int16}

theorem getElem?_ripple (request : Int16 × String) : (ripple names definitions request)[fid]? =
    if request.1 = fid then
      definitions[fid]?.map fun field => { field with rippleTo := names[request.2]?.getD field.rippleTo }
    else definitions[fid]? := by
  unfold ripple
  cases found : names[request.2]? with
  | some target =>
    simp only [Std.ExtTreeMap.getElem?_modify, Std.LawfulEqCmp.compare_eq_iff_eq]
    split
    case isTrue same =>
      rw [same]
      rfl
    case isFalse => rfl
  | none => simp

theorem getElem?_ripples_of_not_mem (absent : fid ∉ ripples.map Prod.fst) :
    (ripples.foldl (ripple names) definitions)[fid]? = definitions[fid]? := by
  induction ripples generalizing definitions with
  | nil => rfl
  | cons request rest ih =>
    rw [List.map_cons, List.mem_cons, not_or] at absent
    rw [List.foldl_cons, ih _ absent.2, getElem?_ripple, if_neg (Ne.symm absent.1)]

theorem getElem?_ripples_of_mem (distinct : (ripples.map Prod.fst).Nodup) {acronym : String}
    (member : (fid, acronym) ∈ ripples) : (ripples.foldl (ripple names) definitions)[fid]? =
      definitions[fid]?.map fun field => { field with rippleTo := names[acronym]?.getD field.rippleTo } := by
  induction ripples generalizing definitions with
  | nil => cases member
  | cons request rest ih =>
    obtain ⟨first, others⟩ := List.nodup_cons.mp distinct
    rw [List.foldl_cons]
    rcases List.mem_cons.mp member with rfl | later
    · rw [getElem?_ripples_of_not_mem _ _ first, getElem?_ripple, if_pos rfl]
    · have different : request.1 ≠ fid := by
        rintro rfl
        exact first (List.mem_map.mpr ⟨_, later, rfl⟩)
      rw [ih _ others later, getElem?_ripple, if_neg different]

theorem map_ripples {α : Type} {read : FieldDefinition → α}
    (kept : ∀ field target, read { field with rippleTo := target } = read field)
    (ripples : List (Int16 × String)) (fid : Int16) :
    ((ripples.foldl (ripple names) definitions)[fid]?).map read = definitions[fid]?.map read := by
  induction ripples generalizing definitions with
  | nil => rfl
  | cons request rest ih =>
    rw [List.foldl_cons, ih, getElem?_ripple]
    split
    · rw [Option.map_map]
      exact congrArg (Option.map · _) (funext fun field => kept field _)
    · rfl

theorem acronym_ripples (ripples : List (Int16 × String)) (fid : Int16) :
    ((ripples.foldl (ripple names) definitions)[fid]?).map (·.acronym) = definitions[fid]?.map (·.acronym) :=
  map_ripples names definitions (fun _ _ => rfl) ripples fid

end

end MarketWire.Dictionary
