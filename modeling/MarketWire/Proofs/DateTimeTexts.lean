import MarketWire.Proofs.TimeTexts

/-! Dates with a time of day in text.

The time stands behind a T if the date is made up of digits and hyphens alone, and else behind the last blank. A T in
the name of October does not divide a text: what stands before it is more than digits and hyphens.
-/

set_option autoImplicit false

namespace MarketWire

namespace DateTime

inductive Writes (value : DateTime) : List Char → Prop where
  | letter {layout : DateLayout} {date time : List Char} (first : layout.Writes value.date date)
      (plain : ∀ c ∈ date, c.isDigit ∨ c = '-') (second : value.time.Writes time) : Writes value (date ++ 'T' :: time)
  | blanks {layout : DateLayout} {date gap time : List Char} (first : layout.Writes value.date date)
      (written : gap ≠ []) (blank : ∀ c ∈ gap, Blank.isBlank c) (second : value.time.Writes time) :
      Writes value (date ++ (gap ++ time))

theorem plain_hyphens (date : Date) :
    ∀ c ∈ date.yearText ++ '-' :: (date.monthText ++ '-' :: date.dayText), c.isDigit ∨ c = '-' := by
  intro c member
  simp only [List.mem_append, List.mem_cons] at member
  rcases member with digit | rfl | digit | rfl | digit
  · exact .inl (Decimal.isDigit_of_mem_padded digit)
  · exact .inr rfl
  · exact .inl (Decimal.isDigit_of_mem_padded digit)
  · exact .inr rfl
  · exact .inl (Decimal.isDigit_of_mem_padded digit)

theorem ne_letter {c : Char} (plain : c.isDigit ∨ c = '-') : c ≠ 'T' := by
  rintro rfl
  rcases plain with plain | plain <;> cases plain

theorem splitText_letter {date time : List Char} (plain : ∀ c ∈ date, c.isDigit ∨ c = '-') :
    splitText (date ++ 'T' :: time) = (date, time) := by
  have others : ∀ c ∈ date, decide (c ≠ 'T') := fun c member => decide_eq_true (ne_letter (plain c member))
  have ends : ∀ c ∈ ('T' :: time).head?, decide (c ≠ 'T') = false := by
    rintro _ ⟨⟩
    rfl
  unfold splitText
  rw [Blank.takeWhile_run ends others, Blank.dropWhile_run ends others]
  exact if_pos (List.all_eq_true.mpr fun c member => by simpa using plain c member)

/-- Only digits and hyphens may stand before a letter that divides. -/
theorem splitText_other {front rest : List Char} {c : Char} (plain : ∀ c ∈ front, c.isDigit ∨ c = '-')
    (other : ¬ (c.isDigit ∨ c = '-')) (same : c ≠ 'T') :
    splitText (front ++ c :: rest) = splitText.atBlank (front ++ c :: rest) := by
  have others : ∀ c ∈ front, decide (c ≠ 'T') := fun c member => decide_eq_true (ne_letter (plain c member))
  unfold splitText
  rw [List.takeWhile_append_of_pos others, List.takeWhile_cons_of_pos (by simpa using same)]
  split
  · refine if_neg fun all => other ?_
    simpa using List.all_eq_true.mp all c (by simp)
  · rfl

theorem atBlank_eq {date time : List Char} {c : Char} (blank : Blank.isBlank c)
    (solid : ∀ c ∈ time, Blank.isBlank c = false) (colon : ':' ∈ time) :
    splitText.atBlank (date ++ (c :: time)) = (date, time) := by
  have reversed : (date ++ (c :: time)).reverse = time.reverse ++ c :: date.reverse := by simp
  have all : ∀ c ∈ time.reverse, (!Blank.isBlank c) := fun c member => by simp [solid c (List.mem_reverse.mp member)]
  have ends : ∀ first ∈ (c :: date.reverse).head?, (!Blank.isBlank first) = false := by
    rintro _ ⟨⟩
    rw [blank]
    rfl
  unfold splitText.atBlank
  rw [reversed, Blank.takeWhile_run ends all, Blank.dropWhile_run ends all]
  dsimp only
  rw [if_pos (by simpa using colon), List.reverse_reverse, List.reverse_reverse]

theorem splitText_gap {front gap rest : List Char} {delimiter : Char} (digits : ∀ c ∈ front, c.isDigit)
    (between : Layout.Gap delimiter gap) :
    splitText (front ++ (gap ++ rest)) = splitText.atBlank (front ++ (gap ++ rest)) := by
  obtain ⟨more, rfl, rfl | rfl, -⟩ := between.skips <;>
    exact splitText_other (fun c member => .inl (digits c member)) (by decide) (by decide)

/-- No letter divides a date: it is made up of digits and hyphens, or a gap stands before its first letter. -/
theorem splitText_date {date : Date} {layout : DateLayout} {text rest : List Char} {c : Char}
    (writes : layout.Writes date text) (blank : Blank.isBlank c) :
    splitText (text ++ c :: rest) = splitText.atBlank (text ++ c :: rest) := by
  have other : ¬ (c.isDigit ∨ c = '-') ∧ c ≠ 'T' := by
    refine ⟨?_, fun same => ?_⟩
    · rintro (digit | rfl)
      · rw [Blank.isBlank_of_isDigit digit] at blank
        cases blank
      · cases blank
    · subst same
      cases blank
  cases writes with
  | hyphens => exact splitText_other (plain_hyphens date) other.1 other.2
  | digits =>
    refine splitText_other (fun c member => .inl ?_) other.1 other.2
    simp only [List.mem_append] at member
    rcases member with digit | digit | digit <;> exact Decimal.isDigit_of_mem_padded digit
  | yearFirst between behind | monthFirst between behind | named between behind spelled =>
    rw [List.append_assoc, List.append_assoc]
    exact splitText_gap (fun _ => Decimal.isDigit_of_mem_padded) between

theorem splitText_blanks {date : Date} {layout : DateLayout} {text gap time : List Char}
    (writes : layout.Writes date text)
    (written : gap ≠ []) (blank : ∀ c ∈ gap, Blank.isBlank c) (solid : ∀ c ∈ time, Blank.isBlank c = false)
    (colon : ':' ∈ time) : splitText (text ++ (gap ++ time)) = (text ++ gap.dropLast, time) := by
  have last : text ++ (gap ++ time) = text ++ gap.dropLast ++ gap.getLast written :: time := by
    rw [List.append_assoc, ← List.singleton_append, ← List.append_assoc gap.dropLast, List.dropLast_append_getLast]
  have first : splitText (text ++ (gap ++ time)) = splitText.atBlank (text ++ (gap ++ time)) := by
    obtain ⟨c, more, rfl⟩ := List.exists_cons_of_ne_nil written
    exact splitText_date writes (blank c List.mem_cons_self)
  rw [first, last]
  exact atBlank_eq (blank _ (List.getLast_mem written)) solid colon

variable {value : DateTime} {monthOf? : String → Option Nat}

/-- A text is divided between its date, with blanks behind it perhaps, and its time. -/
theorem Writes.splits {text : List Char} (writes : value.Writes text) : ∃ layout date more time,
    DateLayout.Writes value.date layout date ∧ (∀ c ∈ more, Blank.isBlank c) ∧ value.time.Writes time ∧
      splitText text = (date ++ more, time) := by
  cases writes with
  | letter first plain second =>
    exact ⟨_, _, [], _, first, nofun, second, by rw [splitText_letter plain, List.append_nil]⟩
  | blanks first written blank second =>
    exact ⟨_, _, _, _, first, fun c member => blank c (List.dropLast_subset _ member), second,
      splitText_blanks first written blank second.isBlank second.clock.1⟩

theorem Writes.isSolid {text : List Char} (full : value.date.IsFull) (writes : value.Writes text) :
    Blank.IsSolid text := by
  cases writes with
  | letter first plain second => exact (DateLayout.isSolid_writes full first).around second.isSolid ['T']
  | blanks first written blank second => exact (DateLayout.isSolid_writes full first).around second.isSolid _

theorem ofTextBy_writes {before text behind : List Char} (knows : Date.KnowsMonths monthOf?) (full : value.date.IsFull)
    (late : 256 ≤ value.date.year.toNat) (set : value.time.IsFull) (writes : value.Writes text)
    (front : ∀ c ∈ before, Blank.isBlank c) (back : ∀ c ∈ behind, Blank.isBlank c) :
    ofTextBy monthOf? (String.ofList (before ++ text ++ behind)) = .ok value := by
  have solid := writes.isSolid full
  obtain ⟨layout, date, more, time, first, blank, second, split⟩ := writes.splits
  have least : layout.leastYear ≤ value.date.year.toNat := Nat.le_trans (by cases layout <;> decide) late
  have readDate : Date.ofTextBy monthOf? (String.ofList (date ++ more)) = .ok value.date := by
    have read : Date.ofTextBy monthOf? (String.ofList ([] ++ date ++ more)) = _ :=
      Date.ofTextBy_writes knows full first nofun blank
    rwa [(DateLayout.understood_eq_iff full).mpr least, if_pos full.valid] at read
  have readTime : Time.ofText (String.ofList time) = .ok value.time := Time.ofText_writes set second
  have written : time.isEmpty = false := List.isEmpty_eq_false_iff.mpr second.isSolid.filled
  unfold ofTextBy
  rw [String.toList_ofList, Blank.trim_solid front solid back]
  split
  case h_1 => exact absurd rfl solid.filled
  case h_2 =>
    simp only [split, readDate, written, readTime]
    rfl

theorem writes_dateText (full : value.date.IsFull) (late : 1000 ≤ value.date.year.toNat) :
    DateLayout.named.Writes value.date value.date.text.toList := by
  have month : 0 < value.date.month.toNat := Nat.pos_of_ne_zero fun zero => full.month (UInt8.toNat_inj.mp zero)
  have within : value.date.month.toNat - 1 < Date.monthNames.length := by
    have most := full.bounds.2
    change _ < 12
    omega
  have listed : Date.monthName? value.date.month = some Date.monthNames[value.date.month.toNat - 1] := by
    rw [Date.monthName?, if_neg full.month, List.getElem?_eq_getElem within]
  have upper : ∀ name ∈ Date.monthNames, name.toList.map Char.toUpper = name.toList := by decide
  have year : (Decimal.padLeft 4 ' ' (toString value.date.year)).toList = value.date.yearText :=
    Decimal.toList_padLeft (by decide) late
  have text : value.date.text.toList = value.date.dayText ++ ([' '] ++
      (Date.monthNames[value.date.month.toNat - 1].toList ++ ([' '] ++ value.date.yearText))) := by
    unfold Date.text
    rw [listed, if_neg full.day, if_neg full.year]
    simp only [String.toList_append, String.reduceToList, List.cons_append, List.nil_append, List.append_assoc]
    rw [year]
    rfl
  rw [text]
  exact .named (.blanks [] nofun) (.blanks [] nofun) ⟨_, listed, upper _ (List.getElem_mem within)⟩

theorem writes_timeText (set : value.time.IsFull) : value.time.Writes value.time.text.toList := by
  have noBlank := set.set
  simp only [Time.components, List.mem_cons, forall_eq_or_imp] at noBlank
  obtain ⟨hour, minute, second, milli, micro, nano, -⟩ := noBlank
  have text : value.time.text.toList = value.time.clockText ('.' :: value.time.fractionText) := by
    unfold Time.text
    simp only [hour, minute, second, milli, micro, nano, Bool.not_false, List.takeWhile_cons_of_pos, List.takeWhile_nil,
      List.map_cons, List.map_nil, String.join_cons, String.join_nil, String.append_empty, String.toList_append,
      String.reduceToList, List.cons_append, List.nil_append]
    rfl
  have written : value.time.fractionText ≠ [] := List.ne_nil_of_length_eq_add_one set.length_fractionText
  rw [text]
  exact @Time.Writes.fraction _ _ 0 written (List.append_nil _)

/-- A date with a time of day comes back from its text, and from the year in front and a T before the time. The time
may stand in any of its forms, a fraction of one to nine digits or three counts, and is read as itself alone, too.
Blanks stay blank. -/
theorem text_read_back (knows : Date.KnowsMonths monthOf?) (full : value.date.IsFull)
    (late : 1000 ≤ value.date.year.toNat) (set : value.time.IsFull) :
    ofTextBy monthOf? value.text = .ok value ∧
      (∀ time, value.time.Writes time →
        Time.ofText (String.ofList time) = .ok value.time ∧
          ofTextBy monthOf? (value.date.text ++ " " ++ String.ofList time) = .ok value ∧
          ofTextBy monthOf? (String.ofList (value.date.yearText ++ '-' :: (value.date.monthText ++ '-' ::
            value.date.dayText) ++ 'T' :: time)) = .ok value) ∧
      ofTextBy monthOf? blank.text = .ok blank := by
  have late' : 256 ≤ value.date.year.toNat := Nat.le_trans (by decide) late
  have named := writes_dateText full late
  have reads {text : List Char} (writes : value.Writes text) : ofTextBy monthOf? (String.ofList text) = .ok value := by
    have read : ofTextBy monthOf? (String.ofList ([] ++ text ++ [])) = _ :=
      ofTextBy_writes knows full late' set writes nofun nofun
    rwa [List.append_nil] at read
  have behind {time : List Char} (writes : value.time.Writes time) :
      ofTextBy monthOf? (value.date.text ++ " " ++ String.ofList time) = .ok value := by
    have read := reads (.blanks named (List.cons_ne_nil ' ' []) (List.forall_mem_singleton.mpr rfl) writes)
    rwa [String.ofList_append, String.ofList_append, String.ofList_toList, ← String.append_assoc] at read
  refine ⟨?_, fun time writes => ⟨Time.ofText_writes set writes, behind writes, ?_⟩, rfl⟩
  · have read := behind (writes_timeText set)
    rwa [String.ofList_toList] at read
  · exact reads (.letter .hyphens (plain_hyphens value.date) writes)

/-- A leap second of the first of October, with zeros in front of the parts of its fraction. -/
theorem text_read_back_october :
    (⟨⟨1, 10, 2003⟩, ⟨9, 0, 60, 0, 1, 2⟩⟩ : DateTime).text = "01 OCT 2003 09:00:60.000001002" ∧
      ofTextBy Date.monthOfName? "01 OCT 2003 09:00:60.000001002" = .ok ⟨⟨1, 10, 2003⟩, ⟨9, 0, 60, 0, 1, 2⟩⟩ := by
  let value : DateTime := ⟨⟨1, 10, 2003⟩, ⟨9, 0, 60, 0, 1, 2⟩⟩
  have date : value.date.IsFull := ⟨by decide, by decide, by decide, by decide, by decide⟩
  have time : value.time.IsFull := ⟨by decide, by decide⟩
  have text : value.text = "01 OCT 2003 09:00:60.000001002" := by decide
  have back := (text_read_back Date.knowsMonths_monthOfName? date (by decide) time).1
  exact ⟨text, text ▸ back⟩

end DateTime

end MarketWire
