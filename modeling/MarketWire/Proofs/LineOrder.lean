import Mathlib.Data.List.Nodup
import MarketWire.Proofs.FidTables
import MarketWire.Proofs.Names
import MarketWire.Proofs.Ripples

/-! Lines of definitions in any order.

The fields of a file are all known before the first ripple is looked up. So a field ripples to a field in front of it,
to one behind it, in a circle or to itself, and it does not matter where the lines stand.
-/

set_option autoImplicit false

namespace MarketWire

/-! ## Lines of a text -/

namespace Line

def join (lines : List Bytes) : Bytes := lines.flatMap (· ++ [0x0A])

theorem join_cons (line : Bytes) (rest : List Bytes) : join (line :: rest) = line ++ 0x0A :: join rest := by
  unfold join
  rw [List.flatMap_cons, List.append_assoc, List.singleton_append]

-- What was read of the line that is being cut is kept in reverse.
theorem cut_closed {line : Bytes} (whole : 0x0A ∉ line) (read : Bytes) (found : List Bytes) (rest : Bytes) :
    cut read found (line ++ 0x0A :: rest) = cut [] ((read.reverse ++ line) :: found) rest := by
  induction line generalizing read with
  | nil => rw [List.nil_append, cut, if_pos rfl, List.append_nil]
  | cons byte line ih =>
    obtain ⟨other, whole⟩ := not_or.mp (mt List.mem_cons.mpr whole)
    rw [List.cons_append, cut, if_neg (Ne.symm other), ih whole, List.reverse_cons, List.append_assoc]
    rfl

theorem cut_open {line : Bytes} (whole : 0x0A ∉ line) (read : Bytes) (filled : read.reverse ++ line ≠ [])
    (found : List Bytes) : cut read found line = found.reverse ++ [read.reverse ++ line] := by
  induction line generalizing read with
  | nil =>
    have nonempty : read.isEmpty = false := by simpa using filled
    rw [cut, nonempty, List.append_nil]
    exact List.reverse_cons
  | cons byte line ih =>
    obtain ⟨other, whole⟩ := not_or.mp (mt List.mem_cons.mpr whole)
    rw [cut, if_neg (Ne.symm other), ih whole _ (by simp), List.reverse_cons, List.append_assoc]
    rfl

theorem cut_join {lines : List Bytes} (whole : ∀ line ∈ lines, 0x0A ∉ line) (found : List Bytes) (rest : Bytes) :
    cut [] found (join lines ++ rest) = cut [] (lines.reverse ++ found) rest := by
  induction lines generalizing found with
  | nil => rfl
  | cons line others ih =>
    obtain ⟨first, others⟩ := List.forall_mem_cons.mp whole
    rw [join_cons, List.append_assoc, List.cons_append, cut_closed first, ih others, List.reverse_cons,
      List.append_assoc]
    rfl

/-- A text consists of lines. There may be no line feed behind the last one. -/
inductive Spells : Bytes → List Bytes → Prop where
  | closed (lines : List Bytes) : Spells (join lines) lines
  | opened (lines : List Bytes) {last : Bytes} (nonempty : last ≠ []) : Spells (join lines ++ last) (lines ++ [last])

theorem cut_of_spells {text : Bytes} {lines : List Bytes} (spells : Spells text lines)
    (whole : ∀ line ∈ lines, 0x0A ∉ line) : cut [] [] text = lines := by
  cases spells with
  | closed => simpa [cut] using cut_join whole [] []
  | opened lines nonempty =>
    obtain ⟨others, last⟩ := List.forall_mem_append.mp whole
    rw [cut_join others, cut_open (last _ List.mem_cons_self) [] nonempty]
    simp

end Line

/-! ## Lines of definitions -/

namespace Scan

theorem demand_gives {α : Type} (reason : String) (value? : Option α) :
    Program.Gives (fun _ : Bytes => True) (value? = some ·) (demand reason value?) := by
  cases value? with
  | some value => exact .pure rfl
  | none => exact fun _ _ => ⟨trivial, nofun⟩

theorem keyword_known {word : String} {type : DataType} (found : DataType.ofKeyword? word = some type) :
    type ≠ .unknown := by
  obtain ⟨before, behind, divided, -⟩ := List.lookup_eq_some_iff.mp found
  have all : ∀ keyword ∈ DataType.keywords, keyword.2 ≠ .unknown := by decide
  exact all (word, type) (by rw [divided]; simp)

theorem field_gives : Program.Gives (fun _ : Bytes => True)
    (fun found : FieldDefinition × Option String => found.1.wireType ≠ .unknown ∧ found.1.rippleTo = 0) field := by
  have skip {α β : Type} {post : β → Prop} {first : Scan α} {next : α → Scan β}
      (behind : ∀ value, Program.Gives (fun _ : Bytes => True) post (next value)) :
      Program.Gives (fun _ => True) post (first >>= next) :=
    .bind (Program.Keeps.gives fun _ _ => trivial) fun value _ => behind value
  unfold field
  iterate 11 refine skip fun _ => ?_
  refine .bind (demand_gives _ _) fun type found => skip fun _ => .pure ⟨keyword_known found, rfl⟩

end Scan

def readField? (line : Bytes) : Option (FieldDefinition × Option String) :=
  match Line.ofBytes (Line.dropReturn line) with
  | .words content =>
    match Scan.field content with
    | .ok found _ => some found
    | .error .. => none
  | _ => none

/-- A line that gives a definition and a word, which is the acronym of the field to ripple to or NULL. -/
structure FieldLine where
  bytes : Bytes
  field : FieldDefinition
  word : String
  whole : 0x0A ∉ bytes
  reads : readField? bytes = some (field, if word = "NULL" then none else some word)

namespace FieldLine

theorem scans (line : FieldLine) : ∃ content rest, Line.ofBytes (Line.dropReturn line.bytes) = .words content ∧
    Scan.field content = .ok (line.field, if line.word = "NULL" then none else some line.word) rest := by
  have reads := line.reads
  unfold readField? at reads
  split at reads
  case h_1 content given =>
    split at reads
    case h_1 found rest scanned =>
      cases reads
      exact ⟨content, rest, given, scanned⟩
    case h_2 => cases reads
  case h_2 => cases reads

theorem field_known (line : FieldLine) : line.field.wireType ≠ .unknown ∧ line.field.rippleTo = 0 := by
  obtain ⟨content, rest, -, scanned⟩ := line.scans
  exact (Scan.field_gives content trivial).2 _ rest scanned

def request? (line : FieldLine) : Option (Int16 × String) :=
  if line.word = "NULL" then none else some (line.field.fid, line.word)

theorem request?_eq_some {line : FieldLine} {request : Int16 × String} (asked : line.request? = some request) :
    line.word ≠ "NULL" ∧ request = (line.field.fid, line.word) := by
  unfold request? at asked
  split at asked
  case isTrue => cases asked
  case isFalse told => exact ⟨told, (Option.some.inj asked).symm⟩

/-- Lines define fields that are not reserved, each once, with acronyms of their own. -/
structure Distinct (lines : List FieldLine) : Prop where
  defined : ∀ line ∈ lines, line.field.fid ≠ 0
  fids : (lines.map (·.field.fid)).Nodup
  acronyms : (lines.map (·.field.acronym)).Nodup

/-- Where a line ripples to: to the field whose acronym is its word, on whatever line that stands, or nowhere. -/
inductive RipplesTo (lines : List FieldLine) (line : FieldLine) : Int16 → Prop where
  | field {other : FieldLine} (member : other ∈ lines) (told : line.word ≠ "NULL")
      (same : other.field.acronym = line.word) : RipplesTo lines line other.field.fid
  | null (untold : line.word = "NULL") : RipplesTo lines line 0
  | dangling (unknown : ∀ other ∈ lines, other.field.acronym ≠ line.word) : RipplesTo lines line 0

theorem Distinct.eq_of_fid {lines : List FieldLine} (distinct : Distinct lines) {line other : FieldLine}
    (member : line ∈ lines) (member' : other ∈ lines) (same : line.field.fid = other.field.fid) : line = other :=
  List.inj_on_of_nodup_map distinct.fids member member' same

theorem Distinct.requests {lines : List FieldLine} (distinct : Distinct lines) :
    ((lines.filterMap (·.request?)).map Prod.fst).Nodup := by
  refine List.pairwise_map.mpr (List.Pairwise.filterMap _ ?_ (List.pairwise_map.mp distinct.fids))
  intro line other different first asked second asked'
  rw [(request?_eq_some asked).2, (request?_eq_some asked').2]
  exact different

theorem RipplesTo.unique {lines : List FieldLine} (distinct : Distinct lines) {line : FieldLine}
    {target target' : Int16} (first : RipplesTo lines line target) (second : RipplesTo lines line target') :
    target = target' := by
  cases first with
  | field member told same =>
    cases second with
    | field member' _ same' =>
      have one := List.inj_on_of_nodup_map distinct.acronyms member member' (same.trans same'.symm)
      rw [one]
    | null untold => exact absurd untold told
    | dangling unknown => exact absurd same (unknown _ member)
  | null untold =>
    cases second with
    | field _ told _ => exact absurd untold told
    | null | dangling => rfl
  | dangling unknown =>
    cases second with
    | field member _ same => exact absurd same (unknown _ member)
    | null | dangling => rfl

theorem exists_ripplesTo (lines : List FieldLine) (line : FieldLine) : ∃ target, RipplesTo lines line target := by
  by_cases untold : line.word = "NULL"
  · exact ⟨0, .null untold⟩
  by_cases known : ∃ other ∈ lines, other.field.acronym = line.word
  · obtain ⟨other, member, same⟩ := known
    exact ⟨_, .field member untold same⟩
  · exact ⟨0, .dangling fun other member same => known ⟨other, member, same⟩⟩

theorem Distinct.perm {lines ordered : List FieldLine} (distinct : Distinct lines) (perm : ordered.Perm lines) :
    Distinct ordered where
  defined line member := distinct.defined line (perm.mem_iff.mp member)
  fids := (perm.map _).nodup_iff.mpr distinct.fids
  acronyms := (perm.map _).nodup_iff.mpr distinct.acronyms

theorem RipplesTo.perm {lines ordered : List FieldLine} (perm : ordered.Perm lines) {line : FieldLine} {target : Int16}
    (ripples : RipplesTo ordered line target) : RipplesTo lines line target := by
  cases ripples with
  | field member told same => exact .field (perm.mem_iff.mp member) told same
  | null untold => exact .null untold
  | dangling unknown => exact .dangling fun other member => unknown other (perm.mem_iff.mpr member)

end FieldLine

namespace Dictionary

/-! ## Adding lines -/

theorem get?_foldl_insertField {fields : List FieldDefinition} (distinct : (fields.map (·.fid)).Nodup)
    (dictionary : Dictionary) (fid : Int16) : (fields.foldl insertField dictionary).get? fid =
      (fields.find? (·.fid == fid)).or (dictionary.get? fid) := by
  induction fields generalizing dictionary with
  | nil => rfl
  | cons field rest ih =>
    obtain ⟨first, others⟩ := List.nodup_cons.mp distinct
    rw [List.foldl_cons, ih others, get?_insertField, List.find?_cons]
    by_cases same : field.fid = fid
    · have missing : rest.find? (·.fid == fid) = none := List.find?_eq_none.mpr fun other member alike =>
        first (List.mem_map.mpr ⟨other, member, (beq_iff_eq.mp alike).trans same.symm⟩)
      rw [if_pos same, missing, beq_iff_eq.mpr same]
      rfl
    · rw [if_neg same, beq_eq_false_iff_ne.mpr same]

theorem get?_fields {fields : List FieldDefinition} (distinct : (fields.map (·.fid)).Nodup) (keep : Bool)
    {fid : Int16} {field : FieldDefinition} :
    (fields.foldl insertField (empty.withNames keep)).get? fid = some field ↔ field ∈ fields ∧ field.fid = fid := by
  have free : (empty.withNames keep).get? fid = none := Std.ExtTreeMap.getElem?_empty
  rw [get?_foldl_insertField distinct, free, Option.or_none]
  constructor
  · intro found
    have same := List.find?_some found
    exact ⟨List.mem_of_find?_eq_some found, beq_iff_eq.mp same⟩
  · rintro ⟨member, rfl⟩
    have known : (fields.find? (·.fid == field.fid)).isSome :=
      List.find?_isSome.mpr ⟨field, member, beq_self_eq_true _⟩
    obtain ⟨other, found⟩ := Option.isSome_iff_exists.mp known
    have same := List.find?_some found
    rw [found, List.inj_on_of_nodup_map distinct (List.mem_of_find?_eq_some found) member (beq_iff_eq.mp same)]

theorem addFieldLines_ok {lines : List FieldLine} {numbered : List (Line × Nat)}
    (given : numbered.map Prod.fst = lines.map fun line => Line.ofBytes (Line.dropReturn line.bytes))
    (defined : ∀ line ∈ lines, line.field.fid ≠ 0) (distinct : (lines.map (·.field.fid)).Nodup)
    (ripples : List (Int16 × String)) {dictionary : Dictionary} (unlinked : ∀ fid, fid ∉ dictionary.links)
    (free : ∀ line ∈ lines, dictionary.get? line.field.fid = none) :
    addFieldLines ripples numbered dictionary = .ok (ripples.reverse ++ lines.filterMap (·.request?))
      ((lines.map (·.field)).foldl insertField dictionary) := by
  induction lines generalizing numbered ripples dictionary with
  | nil =>
    obtain rfl := List.map_eq_nil_iff.mp given
    rw [addFieldLines, List.filterMap_nil, List.append_nil]
    rfl
  | cons line rest ih =>
    obtain ⟨⟨_, number⟩, numbered, rfl, rfl, others⟩ := List.map_eq_cons_iff.mp given
    obtain ⟨first, defined⟩ := List.forall_mem_cons.mp defined
    obtain ⟨single, distinct⟩ := List.nodup_cons.mp distinct
    obtain ⟨content, left, words, scanned⟩ := line.scans
    have admits : dictionary.Admits line.field := by
      refine ⟨first, line.field_known.1, free line List.mem_cons_self, fun link linked => ?_⟩
      exact absurd (Std.ExtTreeMap.mem_iff_isSome_getElem?.mpr (by rw [linked]; rfl)) (unlinked line.field.fid)
    have added : onLine number (Store.addField line.field) dictionary = .ok () (dictionary.insertField line.field) :=
      onLine_eq_ok.mpr (addField_ok admits)
    have unlinked' : ∀ fid, fid ∉ (dictionary.insertField line.field).links := unlinked
    have later : ∀ other ∈ rest, (dictionary.insertField line.field).get? other.field.fid = none := by
      intro other member
      rw [get?_insertField, if_neg]
      · exact free other (List.mem_cons_of_mem _ member)
      · exact fun same => single (List.mem_map.mpr ⟨other, member, same.symm⟩)
    have read : scanLine number Scan.field content dictionary =
        .ok (line.field, if line.word = "NULL" then none else some line.word) dictionary := by
      unfold scanLine
      rw [scanned]
      rfl
    dsimp only
    rw [words, addFieldLines, Program.bind_ok read]
    dsimp only
    rw [Program.bind_ok added, List.map_cons, List.foldl_cons, List.filterMap_cons]
    unfold FieldLine.request?
    by_cases untold : line.word = "NULL"
    · rw [if_pos untold, if_pos untold]
      exact ih others defined distinct ripples unlinked' later
    · rw [if_neg untold, if_neg untold]
      dsimp only
      rw [ih others defined distinct _ unlinked' later, List.reverse_cons, List.append_assoc]
      rfl

theorem WellFormed.namedBy {dictionary : Dictionary} (wellFormed : dictionary.WellFormed)
    (indexed : dictionary.IsIndexed) : dictionary.NamedBy (dictionary.names.getD dictionary.buildNames) := by
  cases kept : dictionary.names with
  | none => exact wellFormed.buildNames
  | some names => exact indexed kept

/-! ## Loading lines -/

section
variable {lines : List FieldLine} (distinct : FieldLine.Distinct lines)
include distinct

/-- Lines leave their definitions to an empty dictionary, and what is to ripple. -/
theorem add_lines {text : Bytes} (spells : Line.Spells text (lines.map (·.bytes))) (keep : Bool) :
    ∃ added, addFieldLines [] (Line.ofText text) (empty.withNames keep) = .ok (lines.filterMap (·.request?)) added ∧
      added.WellFormed ∧ added.IsIndexed ∧
      ∀ {fid field}, added.get? fid = some field ↔ ∃ line ∈ lines, line.field.fid = fid ∧ line.field = field := by
  have free (fid : Int16) : (empty.withNames keep).get? fid = none := Std.ExtTreeMap.getElem?_empty
  have given : (Line.ofText text).map Prod.fst = lines.map fun line => Line.ofBytes (Line.dropReturn line.bytes) := by
    unfold Line.ofText
    rw [List.zipIdx_map_fst, Line.cut_of_spells spells, List.map_map]
    · rfl
    · intro bytes member
      obtain ⟨line, -, rfl⟩ := List.mem_map.mp member
      exact line.whole
  have loaded := addFieldLines_ok given distinct.defined distinct.fids [] (fun _ => Std.ExtTreeMap.not_mem_empty)
    fun line _ => free line.field.fid
  have sound := (isIndexed_invariant.updates.alike.addFieldLines (fun _ _ => trivial) _).keeps.of_ok
    (isIndexed_invariant.names isIndexed_invariant.empty keep) loaded
  refine ⟨_, loaded, sound.1, sound.2, fun {fid field} => ?_⟩
  have fids : ((lines.map (·.field)).map (·.fid)).Nodup := by
    rw [List.map_map]
    exact distinct.fids
  rw [get?_fields fids, List.mem_map]
  constructor
  · rintro ⟨⟨line, member, rfl⟩, same⟩
    exact ⟨line, member, same, rfl⟩
  · rintro ⟨line, member, same, rfl⟩
    exact ⟨⟨line, member, rfl⟩, same⟩

theorem exists_target {added : Dictionary} {names : Std.ExtTreeMap String Int16} (named : added.NamedBy names)
    (told : ∀ {fid field}, added.get? fid = some field ↔ ∃ line ∈ lines, line.field.fid = fid ∧ line.field = field)
    {line : FieldLine} (member : line ∈ lines) : ∃ target, line.RipplesTo lines target ∧
      ((lines.filterMap (·.request?)).foldl (ripple names) added.definitions)[line.field.fid]? =
        some { line.field with rippleTo := target } := by
  have defined : added.definitions[line.field.fid]? = some line.field := told.mpr ⟨line, member, rfl, rfl⟩
  have still : line.field = { line.field with rippleTo := 0 } := by rw [← line.field_known.2]
  by_cases untold : line.word = "NULL"
  · refine ⟨0, .null untold, ?_⟩
    rw [getElem?_ripples_of_not_mem, defined, ← still]
    intro asked
    obtain ⟨request, asked, same⟩ := List.mem_map.mp asked
    obtain ⟨other, member', asked⟩ := List.mem_filterMap.mp asked
    obtain ⟨told, rfl⟩ := FieldLine.request?_eq_some asked
    exact told (distinct.eq_of_fid member' member same ▸ untold)
  · have asked : (line.field.fid, line.word) ∈ lines.filterMap (·.request?) :=
      List.mem_filterMap.mpr ⟨line, member, if_neg untold⟩
    have found := getElem?_ripples_of_mem names added.definitions distinct.requests asked
    rw [defined, Option.map_some] at found
    cases known : names[line.word]? with
    | some target =>
      obtain ⟨field, defined', same⟩ := named.leads known
      obtain ⟨other, member', rfl, rfl⟩ := told.mp defined'
      refine ⟨_, .field member' untold same, ?_⟩
      rw [found, known]
      rfl
    | none =>
      refine ⟨0, .dangling fun other member' same => ?_, ?_⟩
      · have covered := named.covers (told.mpr ⟨other, member', rfl, rfl⟩)
        rw [same, Std.ExtTreeMap.mem_iff_isSome_getElem?, known] at covered
        cases covered
      · rw [found, known, Option.getD_none, line.field_known.2]

/-- Lines are loaded, and each field ripples to where its line tells. -/
theorem load_lines {text : Bytes} (spells : Line.Spells text (lines.map (·.bytes))) (keep : Bool) :
    ∃ loaded, parseFields text (empty.withNames keep) = .ok () loaded ∧ loaded.WellFormed ∧
      ∀ entry, entry ∈ loaded.toList ↔
        ∃ line ∈ lines, ∃ target, line.RipplesTo lines target ∧ entry = { line.field with rippleTo := target } := by
  obtain ⟨added, run, sound, indexed, told⟩ := add_lines distinct spells keep
  have parsed : parseFields text (empty.withNames keep) =
      .ok () (resolveRipples (lines.filterMap (·.request?)) added) :=
    transaction_eq_ok.mpr (Program.bind_ok run)
  have wellFormed : (resolveRipples (lines.filterMap (·.request?)) added).WellFormed :=
    (wellFormed_invariant.updates.alike.parseFields text).keeps.of_ok
      (wellFormed_invariant.names wellFormed_invariant.empty keep) parsed
  refine ⟨_, parsed, wellFormed, fun entry => ?_⟩
  have targets {line : FieldLine} (member : line ∈ lines) := exists_target distinct (sound.namedBy indexed) told member
  rw [wellFormed.mem_toList, resolveRipples_eq]
  constructor
  · intro found
    have defined : (added.definitions[entry.fid]?).map (·.acronym) = some entry.acronym := by
      rw [← acronym_ripples]
      exact congrArg (Option.map _) found
    obtain ⟨field, defined, -⟩ := Option.map_eq_some_iff.mp defined
    obtain ⟨line, member, same, -⟩ := told.mp defined
    obtain ⟨target, ripples, found'⟩ := targets member
    rw [same] at found'
    exact ⟨line, member, target, ripples, Option.some.inj (found.symm.trans found')⟩
  · rintro ⟨line, member, target, ripples, rfl⟩
    obtain ⟨target', ripples', found⟩ := targets member
    rw [ripples.unique distinct ripples']
    exact found

theorem length_of_lines {loaded : Dictionary} (wellFormed : loaded.WellFormed)
    (members : ∀ entry, entry ∈ loaded.toList ↔
      ∃ line ∈ lines, ∃ target, line.RipplesTo lines target ∧ entry = { line.field with rippleTo := target }) :
    loaded.toList.length = lines.length := by
  have alike : (loaded.toList.map (·.fid)).Perm (lines.map (·.field.fid)) := by
    refine (List.perm_ext_iff_of_nodup wellFormed.toList_nodup distinct.fids).mpr fun fid => ?_
    simp only [List.mem_map, members]
    constructor
    · rintro ⟨_, ⟨line, member, target, -, rfl⟩, rfl⟩
      exact ⟨line, member, rfl⟩
    · rintro ⟨line, member, rfl⟩
      obtain ⟨target, ripples⟩ := line.exists_ripplesTo lines
      exact ⟨_, ⟨line, member, target, ripples, rfl⟩, rfl⟩
  have counted := alike.length_eq
  rwa [List.length_map, List.length_map] at counted

/-- Lines of definitions may stand in any order, in a dictionary that keeps names or does not. The same definitions are
loaded, and each field ripples to the field whose acronym its line gives, wherever that is, or nowhere. -/
theorem parseFields_any_order : ∃ entries : List FieldDefinition,
    (∀ entry, entry ∈ entries ↔
      ∃ line ∈ lines, ∃ target, line.RipplesTo lines target ∧ entry = { line.field with rippleTo := target }) ∧
    entries.length = lines.length ∧ entries.Pairwise (·.fid < ·.fid) ∧
    ∀ ordered text keep, List.Perm ordered lines → Line.Spells text (ordered.map (·.bytes)) →
      ∃ loaded, parseFields text (empty.withNames keep) = .ok () loaded ∧ loaded.toList = entries ∧
        loaded.size = entries.length ∧ loaded.minFid? = entries.head?.map (·.fid) ∧
        loaded.maxFid? = entries.getLast?.map (·.fid) := by
  obtain ⟨first, -, sound, members⟩ := load_lines distinct (.closed _) true
  refine ⟨first.toList, members, length_of_lines distinct sound members, sound.toList_ascending,
    fun ordered text keep perm spells => ?_⟩
  obtain ⟨loaded, parsed, wellFormed, members'⟩ := load_lines (distinct.perm perm) spells keep
  have same : loaded.toList = first.toList := by
    refine FidSlots.eq_of_ascending FieldDefinition.fid wellFormed.toList_ascending sound.toList_ascending ?_
    intro entry
    rw [members, members']
    constructor
    · rintro ⟨line, member, target, ripples, rfl⟩
      exact ⟨line, perm.mem_iff.mp member, target, ripples.perm perm, rfl⟩
    · rintro ⟨line, member, target, ripples, rfl⟩
      exact ⟨line, perm.mem_iff.mpr member, target, ripples.perm perm.symm, rfl⟩
  rw [← same, length_toList]
  exact ⟨loaded, parsed, rfl, rfl, wellFormed.minFid?_toList, wellFormed.maxFid?_toList⟩

end

/-- Two fields ripple to each other, a third one to itself, and the last one to a field that there is not. -/
def circle : List FieldLine :=
  let field (fid : Int16) (acronym : String) : FieldDefinition :=
    { fid, acronym, longName := acronym, fieldType := .integer, length := 5, wireType := .int, wireLength := 2 }
  [⟨Bytes.ofString "A \"A\" 10 B INTEGER 5 INT 2", field 10 "A", "B", by decide +kernel, by decide +kernel⟩,
    ⟨Bytes.ofString "B \"B\" 11 A INTEGER 5 INT 2", field 11 "B", "A", by decide +kernel, by decide +kernel⟩,
    ⟨Bytes.ofString "C \"C\" 12 C INTEGER 5 INT 2", field 12 "C", "C", by decide +kernel, by decide +kernel⟩,
    ⟨Bytes.ofString "D \"D\" 13 E INTEGER 5 INT 2", field 13 "D", "E", by decide +kernel, by decide +kernel⟩]

theorem parseFields_any_order_circle : FieldLine.Distinct circle ∧
    ∃ loaded, parseFields (Line.join (circle.reverse.map (·.bytes))) (empty.withNames false) = .ok () loaded ∧
      loaded.size = 4 ∧ ∀ ripple ∈ [((10 : Int16), (11 : Int16)), (11, 10), (12, 12), (13, 0)],
        ∃ entry ∈ loaded.toList, entry.fid = ripple.1 ∧ entry.rippleTo = ripple.2 := by
  have distinct : FieldLine.Distinct circle := by
    constructor
    all_goals decide
  obtain ⟨entries, members, counted, -, all⟩ := parseFields_any_order distinct
  obtain ⟨loaded, parsed, same, size, -⟩ := all circle.reverse _ false (List.reverse_perm circle) (.closed _)
  refine ⟨distinct, loaded, parsed, size.trans counted, fun ripple member => ?_⟩
  have rippled (position : Nat) (inside : position < circle.length) {target : Int16}
      (ripples : circle[position].RipplesTo circle target) :
      ∃ entry ∈ loaded.toList, entry.fid = circle[position].field.fid ∧ entry.rippleTo = target := by
    rw [same]
    exact ⟨_, (members _).mpr ⟨_, List.getElem_mem inside, target, ripples, rfl⟩, rfl, rfl⟩
  have told (position : Nat) (inside : position < circle.length) : circle[position] ∈ circle := List.getElem_mem inside
  simp only [List.mem_cons, List.not_mem_nil, or_false] at member
  obtain rfl | rfl | rfl | rfl := member
  · exact rippled 0 (by decide) (.field (told 1 (by decide)) (by decide) rfl)
  · exact rippled 1 (by decide) (.field (told 0 (by decide)) (by decide) rfl)
  · exact rippled 2 (by decide) (.field (told 2 (by decide)) (by decide) rfl)
  · exact rippled 3 (by decide) (.dangling (by decide))

end Dictionary

end MarketWire
