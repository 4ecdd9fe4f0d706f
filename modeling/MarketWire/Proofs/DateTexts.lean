import MarketWire.Proofs.DigitRuns

/-! Dates in text, in five layouts.

Each layout has the day and the month of a date with two digits, or the month by its name, and the year with four.
Hyphens and digits alone keep the year that is written. Between slashes and blanks a first number up to 255 is taken
for a month, whatever its digits, and a year below 100 for one of the twentieth century. So these layouts tell a date
exactly if its year is large enough.
-/

set_option autoImplicit false

namespace MarketWire

/-! ## Trimmed texts -/

namespace Blank

structure IsSolid (text : List Char) : Prop where
  filled : text ≠ []
  first : ∀ c ∈ text.head?, isBlank c = false
  last : ∀ c ∈ text.getLast?, isBlank c = false

theorem isBlank_of_isDigit {c : Char} (digit : c.isDigit) : isBlank c = false :=
  Decimal.of_isDigit (isBlank · = false) (by decide) digit

theorem trim_solid {before text behind : List Char} (front : ∀ c ∈ before, isBlank c) (solid : IsSolid text)
    (back : ∀ c ∈ behind, isBlank c) : trim (before ++ text ++ behind) = text := by
  have first : ∀ c ∈ (text ++ behind).head?, isBlank c = false := by
    rw [List.head?_append_of_ne_nil _ solid.filled]
    exact solid.first
  have last : ∀ c ∈ text.reverse.head?, isBlank c = false := by
    rw [List.head?_reverse]
    exact solid.last
  unfold trim trimBoth
  rw [List.append_assoc, dropWhile_run first front, List.reverse_append, dropWhile_run last, List.reverse_reverse]
  exact fun c member => back c (List.mem_reverse.mp member)

theorem trim_eq {text : List Char} (solid : IsSolid text) : trim text = text := by
  have trimmed : trim ([] ++ text ++ []) = text := trim_solid nofun solid nofun
  rwa [List.append_nil] at trimmed

theorem isSolid_padded {width n : Nat} (positive : 0 < width) (fits : n < 10 ^ width) :
    IsSolid (Decimal.padded width n) where
  filled := Decimal.padded_ne_nil positive fits
  first _ found := isBlank_of_isDigit (Decimal.isDigit_of_mem_padded (List.mem_of_mem_head? found))
  last _ found := isBlank_of_isDigit (Decimal.isDigit_of_mem_padded (List.mem_of_mem_getLast? found))

theorem IsSolid.around {front back : List Char} (solid : IsSolid front) (solid' : IsSolid back) (middle : List Char) :
    IsSolid (front ++ (middle ++ back)) where
  filled := List.append_ne_nil_of_left_ne_nil solid.filled _
  first c found := solid.first c (by rwa [List.head?_append_of_ne_nil _ solid.filled] at found)
  last c found := solid'.last c (by rwa [← List.append_assoc, List.getLast?_append_of_ne_nil _ solid'.filled] at found)

end Blank

/-! ## Layouts -/

namespace Date

/-- A reader of month names knows the names of three letters, in any case. -/
def KnowsMonths (monthOf? : String → Option Nat) : Prop :=
  ∀ (index : Nat) (name : String) (spelling : List Char), monthNames[index]? = some name →
    spelling.map Char.toUpper = name.toList → monthOf? (String.ofList spelling) = some (index + 1)

/-- A date of which no component is missing and whose year has four digits at most. -/
structure IsFull (date : Date) : Prop where
  valid : date.isValid
  day : date.day ≠ 0
  month : date.month ≠ 0
  year : date.year ≠ 0
  narrow : date.year.toNat < 10 ^ 4

def dayText (date : Date) : List Char := Decimal.padded 2 date.day.toNat

def monthText (date : Date) : List Char := Decimal.padded 2 date.month.toNat

def yearText (date : Date) : List Char := Decimal.padded 4 date.year.toNat

def IsNamed (date : Date) (spelling : List Char) : Prop :=
  ∃ name, monthName? date.month = some name ∧ spelling.map Char.toUpper = name.toList

theorem monthNames_found : ∀ index < 12, ∃ name ∈ monthNames[index]?,
    monthNames.findIdx? (·.toList == name.toList) = some index ∧ name.toList.length = 3 ∧
      name.toList.head?.all Char.isAlpha := by
  decide

theorem knowsMonths_monthOfName? : KnowsMonths monthOfName? := by
  intro index name spelling listed spelled
  obtain ⟨_, again, found, -⟩ := monthNames_found index (List.getElem?_eq_some_iff.mp listed).1
  cases listed.symm.trans again
  rw [monthOfName?, String.toList_ofList, spelled, found]
  rfl

theorem isAlpha_of_toUpper {c : Char} (letter : c.toUpper.isAlpha) : c.isAlpha := by
  by_cases small : 'a'.val ≤ c.val ∧ c.val ≤ 'z'.val
  · have lower : c.isLower := Bool.and_eq_true_iff.mpr ⟨decide_eq_true small.1, decide_eq_true small.2⟩
    exact Bool.or_eq_true_iff.mpr (.inr lower)
  · have same : c.toUpper = c := dif_neg small
    rwa [same] at letter

theorem IsNamed.known {date : Date} {spelling : List Char} (named : date.IsNamed spelling) :
    spelling.length = 3 ∧ (∀ c ∈ spelling.head?, c.isAlpha) ∧
      ∀ {monthOf?}, KnowsMonths monthOf? → monthOf? (String.ofList spelling) = some date.month.toNat := by
  obtain ⟨name, listed, spelled⟩ := named
  unfold monthName? at listed
  split at listed
  case isTrue => cases listed
  case isFalse nonzero =>
    obtain ⟨_, again, -, length, letter⟩ := monthNames_found _ (List.getElem?_eq_some_iff.mp listed).1
    cases listed.symm.trans again
    rw [← spelled] at length letter
    rw [List.length_map] at length
    refine ⟨length, fun c found => isAlpha_of_toUpper ?_, fun knows => ?_⟩
    · rwa [List.head?_map, Option.mem_def.mp found] at letter
    · have positive : 0 < date.month.toNat := Nat.pos_of_ne_zero fun zero => nonzero (UInt8.toNat_inj.mp zero)
      rw [knows _ name spelling listed spelled, Nat.sub_add_cancel positive]

end Date

namespace Layout

/-- What stands between two parts: a slash, or a space and perhaps more blanks behind it. -/
inductive Gap : Char → List Char → Prop where
  | slash : Gap '/' ['/']
  | blanks (more : List Char) (blank : ∀ c ∈ more, isBlankAscii c) : Gap ' ' (' ' :: more)

end Layout

inductive DateLayout where
  | hyphens
  | digits
  | yearFirst
  | monthFirst
  | named
  deriving DecidableEq, Repr

namespace DateLayout

open Layout (Gap)

inductive Writes (date : Date) : DateLayout → List Char → Prop where
  | hyphens : Writes date .hyphens (date.yearText ++ '-' :: (date.monthText ++ '-' :: date.dayText))
  | digits : Writes date .digits (date.yearText ++ (date.monthText ++ date.dayText))
  | yearFirst {delimiter : Char} {first second : List Char} (between : Gap delimiter first)
      (behind : Gap delimiter second) :
      Writes date .yearFirst (date.yearText ++ (first ++ (date.monthText ++ (second ++ date.dayText))))
  | monthFirst {delimiter : Char} {first second : List Char} (between : Gap delimiter first)
      (behind : Gap delimiter second) :
      Writes date .monthFirst (date.monthText ++ (first ++ (date.dayText ++ (second ++ date.yearText))))
  | named {delimiter : Char} {first second month : List Char} (between : Gap delimiter first)
      (behind : Gap delimiter second) (spelled : date.IsNamed month) :
      Writes date .named (date.dayText ++ (first ++ (month ++ (second ++ date.yearText))))

/-- The year from which on a layout tells every date. -/
def leastYear : DateLayout → Nat
  | .hyphens | .digits => 0
  | .yearFirst => 256
  | .monthFirst | .named => 100

/-- The date that is understood of a date in a layout. -/
def understood (layout : DateLayout) (date : Date) : Date :=
  match layout with
  | .hyphens | .digits => date
  | .yearFirst =>
    if 255 < date.year.toNat then date
    else ⟨date.month, UInt8.ofNat date.year.toNat, UInt16.ofNat (Layout.fullYear date.day.toNat)⟩
  | .monthFirst | .named => ⟨date.day, date.month, UInt16.ofNat (Layout.fullYear date.year.toNat)⟩

end DateLayout

/-! ## What a text is read as -/

namespace Layout

theorem isBlankAscii_of_isDigit {c : Char} (digit : c.isDigit) : isBlankAscii c = false :=
  Decimal.of_isDigit (isBlankAscii · = false) (by decide) digit

theorem isBlankAscii_of_isAlpha {c : Char} (letter : c.isAlpha) : isBlankAscii c = false := by
  refine Bool.eq_false_iff.mpr fun blank => ?_
  simp only [isBlankAscii, Bool.or_eq_true, beq_iff_eq] at blank
  rcases blank with (((rfl | rfl) | rfl) | rfl) | rfl <;> cases letter

theorem isAlpha_of_isDigit {c : Char} (digit : c.isDigit) : c.isAlpha = false :=
  Decimal.of_isDigit (·.isAlpha = false) (by decide) digit

namespace Gap

variable {delimiter : Char} {gap : List Char} (between : Gap delimiter gap)
include between

theorem skips : ∃ more, gap = delimiter :: more ∧ (delimiter = '/' ∨ delimiter = ' ') ∧
    ∀ rest : List Char, (∀ c ∈ rest.head?, isBlankAscii c = false) → skipBlanks delimiter (more ++ rest) = rest := by
  cases between with
  | slash => exact ⟨[], rfl, .inl rfl, fun rest _ => rfl⟩
  | blanks more blank =>
    refine ⟨more, rfl, .inr rfl, fun rest solid => ?_⟩
    unfold skipBlanks
    rw [if_pos rfl, Blank.dropWhile_run solid blank]

theorem endsRun (rest : List Char) : EndsRun (gap ++ rest) := by
  obtain ⟨more, rfl, rfl | rfl, -⟩ := between.skips <;> (rintro _ ⟨⟩; rfl)

end Gap

/-! ### Numbers in a row -/

section
variable {monthOf? : String → Option Nat} {year month day : Nat} (four : year < 10 ^ 4) (monthTwo : month < 10 ^ 2)
  (dayTwo : day < 10 ^ 2)
include four monthTwo dayTwo

theorem date_hyphens :
    date monthOf? (Decimal.padded 4 year ++ '-' :: (Decimal.padded 2 month ++ '-' :: Decimal.padded 2 day)) =
    dateOf day month year := by
  have last : numberOf [2] (Decimal.padded 2 day) = some (day, []) :=
    numberOf_padded_eq (by decide) (by decide) dayTwo
  unfold date
  rw [number_padded (by decide) four (by rintro _ ⟨⟩; rfl)]
  change dateAfterYear year _ = _
  unfold dateAfterYear
  rw [numberOf_padded (by decide) (by decide) monthTwo (by rintro _ ⟨⟩; rfl)]
  simp only [Option.bind_eq_bind, Option.bind_some, after, if_true, last, List.isEmpty_nil]

theorem date_digits : date monthOf? (Decimal.padded 4 year ++ (Decimal.padded 2 month ++ Decimal.padded 2 day)) =
    dateOf day month year := by
  have all : ∀ c ∈ Decimal.padded 4 year ++ (Decimal.padded 2 month ++ Decimal.padded 2 day), c.isDigit := by
    simp only [List.mem_append]
    rintro c (digit | digit | digit) <;> exact Decimal.isDigit_of_mem_padded digit
  have length : (Decimal.padded 4 year ++ (Decimal.padded 2 month ++ Decimal.padded 2 day)).length = 8 := by
    simp only [List.length_append, Decimal.length_padded (by decide) four, Decimal.length_padded (by decide) monthTwo,
      Decimal.length_padded (by decide) dayTwo]
  have value : Nat.ofDigitChars 10 (Decimal.padded 4 year ++ (Decimal.padded 2 month ++ Decimal.padded 2 day)) 0 =
      year * 10000 + month * 100 + day := by
    rw [Nat.ofDigitChars_append, Nat.ofDigitChars_append, Decimal.ofDigitChars_padded (by decide) four,
      Decimal.ofDigitChars_padded (by decide) monthTwo, Decimal.ofDigitChars_padded (by decide) dayTwo]
    ring
  have parts : (year * 10000 + month * 100 + day) % 100 = day ∧ (year * 10000 + month * 100 + day) / 100 % 100 = month ∧
      (year * 10000 + month * 100 + day) / 10000 = year := by omega
  unfold date
  rw [number_eq all, value, length]
  dsimp only
  rw [parts.1, parts.2.1, parts.2.2]
  rfl

end

/-! ### Three parts -/

section
variable {monthOf? : String → Option Nat} {width first second third : Nat} {delimiter : Char}
  {between behind more rest : List Char}

theorem date_parts (gap : Gap delimiter (delimiter :: more)) (wide : width = 2 ∨ width = 4)
    (fits : first < 10 ^ width) :
    date monthOf? (Decimal.padded width first ++ (delimiter :: more ++ rest)) =
      dateInParts monthOf? first delimiter (more ++ rest) := by
  have ends := gap.endsRun rest
  obtain ⟨_, -, known, -⟩ := gap.skips
  unfold date
  rcases wide with rfl | rfl <;> rw [number_padded (by decide) fits ends] <;> rcases known with rfl | rfl <;> rfl

theorem last_part (gap : Gap delimiter behind) (wide : width = 2 ∨ width = 4) (fits : third < 10 ^ width) :
    ∃ more, after delimiter (behind ++ Decimal.padded width third) = some more ∧
      numberOf [1, 2, 4] (skipBlanks delimiter more) = some (third, []) := by
  have positive : 0 < width := by omega
  have known : width ∈ [1, 2, 4] := by rcases wide with rfl | rfl <;> decide
  obtain ⟨more, rfl, -, skips⟩ := gap.skips
  have solid := Decimal.forall_head?_padded positive fits (fun _ => isBlankAscii_of_isDigit) []
  rw [List.append_nil] at solid
  refine ⟨more ++ Decimal.padded width third, if_pos rfl, ?_⟩
  rw [skips _ solid, numberOf_padded_eq known positive fits]

theorem date_numbers (gap : Gap delimiter between) (gap' : Gap delimiter behind) (wide : width = 2 ∨ width = 4)
    (fits : first < 10 ^ width) (two : second < 10 ^ 2) {last : Nat} (wide' : last = 2 ∨ last = 4)
    (fits' : third < 10 ^ last) :
    date monthOf? (Decimal.padded width first ++
        (between ++ (Decimal.padded 2 second ++ (behind ++ Decimal.padded last third)))) =
      if 255 < first then dateOf third second first else dateOf second first (fullYear third) := by
  obtain ⟨more, rfl, -, skips⟩ := gap.skips
  obtain ⟨more', follows, ends⟩ := last_part gap' wide' fits'
  have unnamed : (Decimal.padded 2 second ++ (behind ++ Decimal.padded last third)).head?.any Char.isAlpha = false := by
    rw [Option.any_eq_false]
    exact Decimal.forall_head?_padded (by decide) two (fun _ => isAlpha_of_isDigit) _
  rw [date_parts gap wide fits]
  unfold dateInParts
  rw [skips _ (Decimal.forall_head?_padded (by decide) two (fun _ => isBlankAscii_of_isDigit) _)]
  dsimp only
  rw [unnamed]
  simp only [Bool.false_eq_true, if_false]
  rw [numberOf_padded (by decide) (by decide) two (gap'.endsRun _)]
  simp only [Option.bind_eq_bind, Option.bind_some, follows, ends]
  rfl

theorem monthName_append {spelling : List Char} {month : Nat} (letters : spelling.length = 3)
    (known : monthOf? (String.ofList spelling) = some month) :
    monthName monthOf? (spelling ++ rest) = some (month, rest) := by
  unfold monthName
  dsimp only
  rw [List.take_left' letters, List.drop_left' letters, if_neg (by omega), known]
  rfl

theorem date_named {date : Date} {spelling : List Char} (knows : Date.KnowsMonths monthOf?)
    (named : date.IsNamed spelling)
    (gap : Gap delimiter between) (gap' : Gap delimiter behind) (fits : first < 10 ^ 2) (fits' : third < 10 ^ 4) :
    Layout.date monthOf? (Decimal.padded 2 first ++ (between ++ (spelling ++ (behind ++ Decimal.padded 4 third)))) =
      dateOf first date.month.toNat (fullYear third) := by
  obtain ⟨letters, letter, known⟩ := named.known
  obtain ⟨more, rfl, -, skips⟩ := gap.skips
  obtain ⟨more', follows, ends⟩ := last_part gap' (.inr rfl) fits'
  obtain ⟨c, others, rfl⟩ := List.exists_cons_of_length_pos (letters ▸ Nat.succ_pos 2 : 0 < spelling.length)
  have isNamed : (c :: others ++ (behind ++ Decimal.padded 4 third)).head?.any Char.isAlpha := letter c rfl
  rw [date_parts gap (.inl rfl) fits]
  unfold dateInParts
  rw [skips]
  · dsimp only
    rw [isNamed]
    simp only [if_true, Option.bind_eq_bind, Option.bind_some, monthName_append letters (known knows), follows, ends]
    rfl
  · rintro _ ⟨⟩
    exact isBlankAscii_of_isAlpha (letter c rfl)

end

end Layout

/-! ### The layouts -/

theorem Date.lastDay?_bounds {month : UInt8} {year : Int} {last : Nat} (found : lastDay? month year = some last) :
    last ≤ 31 ∧ month.toNat ≤ 12 := by
  unfold lastDay? at found
  split at found <;> cases found
  -- only February asks for the year
  all_goals first | omega | split <;> omega

theorem Layout.dateOf_ofNat {day month : UInt8} {year : Nat} (fits : year < 65536) :
    dateOf day.toNat month.toNat year = some ⟨day, month, UInt16.ofNat year⟩ := by
  have dayFits := day.toNat_lt
  have monthFits := month.toNat_lt
  unfold dateOf
  rw [if_pos (by simp; omega), UInt8.ofNat_toNat, UInt8.ofNat_toNat]

theorem Layout.dateOf_eq (date : Date) : dateOf date.day.toNat date.month.toNat date.year.toNat = some date := by
  rw [dateOf_ofNat date.year.toNat_lt, UInt16.ofNat_toNat]

theorem Layout.fullYear_lt {year : Nat} (narrow : year < 10000) : fullYear year < 65536 := by
  unfold fullYear
  split <;> omega

namespace Date.IsFull

variable {date : Date} (full : date.IsFull)
include full

theorem bounds : date.day.toNat ≤ 31 ∧ date.month.toNat ≤ 12 := by
  have valid := full.valid
  unfold isValid at valid
  split at valid
  case h_1 last found =>
    obtain ⟨most, known⟩ := lastDay?_bounds found
    exact ⟨Nat.le_trans (of_decide_eq_true valid) most, known⟩
  case h_2 => cases valid

theorem dayTwo : date.day.toNat < 10 ^ 2 := Nat.lt_of_le_of_lt full.bounds.1 (by decide)

theorem monthTwo : date.month.toNat < 10 ^ 2 := Nat.lt_of_le_of_lt full.bounds.2 (by decide)

end Date.IsFull

namespace DateLayout

variable {date : Date} {layout : DateLayout} {monthOf? : String → Option Nat} {text : List Char}

/-- A date in a layout is read as it is understood. -/
theorem date_writes (knows : Date.KnowsMonths monthOf?) (full : date.IsFull) (writes : layout.Writes date text) :
    Layout.date monthOf? text = some (layout.understood date) := by
  obtain ⟨day, month⟩ := full.bounds
  have dayTwo := full.dayTwo
  have monthTwo := full.monthTwo
  have four := full.narrow
  cases writes with
  | hyphens =>
    unfold Date.yearText Date.monthText Date.dayText
    rw [Layout.date_hyphens four monthTwo dayTwo]
    exact Layout.dateOf_eq date
  | digits =>
    unfold Date.yearText Date.monthText Date.dayText
    rw [Layout.date_digits four monthTwo dayTwo]
    exact Layout.dateOf_eq date
  | yearFirst between behind =>
    unfold Date.yearText Date.monthText Date.dayText
    rw [Layout.date_numbers between behind (.inr rfl) four monthTwo (.inl rfl) dayTwo, understood]
    split
    · exact Layout.dateOf_eq date
    -- the year is taken for the month, the month for the day and the day for a year
    · have year : (UInt8.ofNat date.year.toNat).toNat = date.year.toNat :=
        UInt8.toNat_ofNat_of_lt' (Nat.lt_succ_of_le (by omega))
      rw [← Layout.dateOf_ofNat (Layout.fullYear_lt (by omega)), year]
  | monthFirst between behind =>
    unfold Date.yearText Date.monthText Date.dayText
    rw [Layout.date_numbers between behind (.inl rfl) monthTwo dayTwo (.inr rfl) four, if_neg (by omega)]
    exact Layout.dateOf_ofNat (Layout.fullYear_lt full.narrow)
  | named between behind spelled =>
    unfold Date.yearText Date.dayText
    rw [Layout.date_named knows spelled between behind dayTwo four]
    exact Layout.dateOf_ofNat (Layout.fullYear_lt full.narrow)

theorem isSolid_writes (full : date.IsFull) (writes : layout.Writes date text) : Blank.IsSolid text := by
  have day : Blank.IsSolid date.dayText := Blank.isSolid_padded (by decide) full.dayTwo
  have month : Blank.IsSolid date.monthText := Blank.isSolid_padded (by decide) full.monthTwo
  have year : Blank.IsSolid date.yearText := Blank.isSolid_padded (by decide) full.narrow
  cases writes with
  | hyphens => simpa using year.around day ('-' :: (date.monthText ++ ['-']))
  | digits => exact year.around day date.monthText
  | yearFirst between behind => simpa using year.around day (_ ++ (date.monthText ++ _))
  | monthFirst between behind => simpa using month.around year (_ ++ (date.dayText ++ _))
  | named between behind spelled => simpa using day.around year (_ ++ (_ ++ _))

end DateLayout

/-- A date in a layout, among blanks, is read as it is understood, unless there is no such date. -/
theorem Date.ofTextBy_writes {date : Date} {layout : DateLayout} {monthOf? : String → Option Nat}
    {before text behind : List Char} (knows : KnowsMonths monthOf?) (full : date.IsFull)
    (writes : layout.Writes date text)
    (front : ∀ c ∈ before, Blank.isBlank c) (back : ∀ c ∈ behind, Blank.isBlank c) :
    ofTextBy monthOf? (String.ofList (before ++ text ++ behind)) =
      if (layout.understood date).isValid then .ok (layout.understood date)
      else .error (Layout.unreadable "date" (String.ofList (before ++ text ++ behind))) := by
  have solid := layout.isSolid_writes full writes
  unfold ofTextBy
  rw [String.toList_ofList, Blank.trim_solid front solid back]
  split
  case h_1 => exact absurd rfl solid.filled
  case h_2 =>
    rw [layout.date_writes knows full writes, Option.filter_some]
    split_ifs <;> rfl

namespace DateLayout

variable {date : Date} {layout : DateLayout}

theorem toNat_fullYear {year : Nat} (small : year < 100) :
    (UInt16.ofNat (Layout.fullYear year)).toNat = year + 1900 := by
  rw [Layout.fullYear, if_pos small, UInt16.toNat_ofNat']
  exact Nat.mod_eq_of_lt (by omega)

theorem understood_eq_iff (full : date.IsFull) :
    layout.understood date = date ↔ layout.leastYear ≤ date.year.toNat := by
  have day := full.bounds.1
  have narrow := full.narrow
  obtain ⟨dayOf, month, year⟩ := date
  dsimp only at day narrow
  unfold understood leastYear
  cases layout with
  | hyphens | digits => exact iff_of_true rfl (Nat.zero_le _)
  | yearFirst =>
    dsimp only
    by_cases large : 255 < year.toNat
    · rw [if_pos large]
      exact iff_of_true rfl large
    · rw [if_neg large]
      refine iff_of_false (fun same => ?_) (fun least => large least)
      have years : UInt16.ofNat (Layout.fullYear dayOf.toNat) = year := (Date.mk.inj same).2.2
      have value := congrArg UInt16.toNat years
      rw [toNat_fullYear (by omega)] at value
      omega
  | monthFirst | named =>
    dsimp only
    by_cases large : 100 ≤ year.toNat
    · rw [Layout.fullYear, if_neg (by omega), UInt16.ofNat_toNat]
      exact iff_of_true rfl large
    · refine iff_of_false (fun same => ?_) large
      have years : UInt16.ofNat (Layout.fullYear year.toNat) = year := (Date.mk.inj same).2.2
      have value := congrArg UInt16.toNat years
      rw [toNat_fullYear (by omega)] at value
      omega

/-- Every date in a layout, among blanks, is read as itself exactly from the least year of the layout on: with hyphens
and as digits alone in every year, with the year first from 256 on and behind day and month from 100 on. -/
theorem ofTextBy_writes_iff {monthOf? : String → Option Nat} {before text behind : List Char}
    (knows : Date.KnowsMonths monthOf?) (full : date.IsFull) (writes : layout.Writes date text)
    (front : ∀ c ∈ before, Blank.isBlank c) (back : ∀ c ∈ behind, Blank.isBlank c) :
    Date.ofTextBy monthOf? (String.ofList (before ++ text ++ behind)) = .ok date ↔
      layout.leastYear ≤ date.year.toNat := by
  rw [Date.ofTextBy_writes knows full writes front back, ← understood_eq_iff full]
  constructor
  · intro read
    split at read
    · exact Except.ok.inj read
    · cases read
  · intro same
    rw [same, if_pos full.valid]

/-- The fourteenth of April of 1974, with blanks around the name of the month. -/
theorem ofTextBy_writes_iff_april : (⟨14, 4, 1974⟩ : Date).IsFull ∧
    DateLayout.named.Writes ⟨14, 4, 1974⟩ "14 aPr  1974".toList ∧
      Date.ofTextBy Date.monthOfName? (String.ofList (['\t'] ++ "14 aPr  1974".toList ++ [' '])) =
        .ok ⟨14, 4, 1974⟩ := by
  have full : (⟨14, 4, 1974⟩ : Date).IsFull := ⟨by decide, by decide, by decide, by decide, by decide⟩
  have writes : DateLayout.named.Writes ⟨14, 4, 1974⟩ "14 aPr  1974".toList :=
    @Writes.named ⟨14, 4, 1974⟩ _ _ _ "aPr".toList (.blanks [] nofun)
      (.blanks [' '] (List.forall_mem_singleton.mpr rfl))
      ⟨"APR", by decide, by decide⟩
  have front : ∀ c ∈ ['\t'], Blank.isBlank c := List.forall_mem_singleton.mpr rfl
  have back : ∀ c ∈ [' '], Blank.isBlank c := List.forall_mem_singleton.mpr rfl
  exact ⟨full, writes, (ofTextBy_writes_iff Date.knowsMonths_monthOfName? full writes front back).mpr (by decide)⟩

/-- Not every date is read as itself: the year 50, in four digits behind month and day, is taken for 1950. -/
theorem early_years_move : ¬ ∀ (layout : DateLayout) (date : Date) (text : List Char), date.IsFull →
    layout.Writes date text → Date.ofText (String.ofList text) = .ok date := by
  intro all
  have full : (⟨14, 4, 50⟩ : Date).IsFull := ⟨by decide, by decide, by decide, by decide, by decide⟩
  have writes : DateLayout.monthFirst.Writes ⟨14, 4, 50⟩ "04/14/0050".toList := Writes.monthFirst .slash .slash
  have read : Date.ofText "04/14/0050" = .ok ⟨14, 4, 1950⟩ := by decide
  exact absurd (read.symm.trans (all .monthFirst ⟨14, 4, 50⟩ _ full writes)) (by decide)

end DateLayout

end MarketWire
