import FlatRecord.Moment

/-!
# Reading the text of a moment

The ISO text of a moment reads back as the moment if it shows all of it (`Moment.IsShown`,
`Moment.read?_isoText`): the text has years of four digits and whole microseconds. It is a row of numbers
filled up with zeros, each read back on its own (`natural?_padded`), with one character that is no digit
between any two of them, at which the reader splits (`pieces_append`). Other years are written with a sign,
and the reader takes none (`Moment.read?_isoText_eq_none`).
-/

namespace FlatRecord.Moment

variable {c : Char} {width n : Nat}

/-! ## Numbers filled up with zeros -/

/-- The characters of a padded number. -/
theorem toList_padded : (padded width n).toList =
    List.replicate (width - (Nat.toDigits 10 n).length) '0' ++ Nat.toDigits 10 n :=
  String.toList_ofList

/-- A padded number has ASCII digits only. -/
theorem isDigit_of_mem_padded (hc : c ∈ (padded width n).toList) : c.isDigit = true := by
  rw [toList_padded, List.mem_append] at hc
  rcases hc with hc | hc
  · rw [List.eq_of_mem_replicate hc]
    rfl
  · exact Nat.isDigit_of_mem_toDigits (by decide) (by decide) hc

/-- A padded number starts with a digit. -/
theorem exists_padded_eq_cons (width n : Nat) :
    ∃ c cs, (padded width n).toList = c :: cs ∧ Text.isDecimalDigit c = true := by
  have hne : (padded width n).toList ≠ [] := by
    rw [toList_padded]
    exact List.append_ne_nil_of_right_ne_nil _ Nat.toDigits_ne_nil
  obtain ⟨c, cs, hcs⟩ := List.exists_cons_of_ne_nil hne
  have hc : c ∈ (padded width n).toList := by rw [hcs]; exact List.mem_cons_self
  exact ⟨c, cs, hcs, Text.isDecimalDigit_of_isDigit (isDigit_of_mem_padded hc)⟩

/-- A padded number reads back. -/
theorem natural?_padded (width n : Nat) : Text.natural? (padded width n).toList = some n := by
  have hdigits : (padded width n).toList.all Char.isDigit = true :=
    List.all_eq_true.2 fun c hc => isDigit_of_mem_padded hc
  have hempty : (padded width n).toList.isEmpty = false := by
    obtain ⟨c, cs, hcs, -⟩ := exists_padded_eq_cons width n
    rw [hcs]
    rfl
  have hvalue : Text.digitsValue (padded width n).toList = n := by
    show Nat.ofDigitChars 10 (padded width n).toList 0 = n
    -- Zeros in front of the digits add nothing to the number.
    rw [toList_padded, Nat.ofDigitChars_append, Nat.ofDigitChars_replicate_zero, Nat.mul_zero,
      Nat.ofDigitChars_ten_toDigits]
  rw [Text.natural?, hdigits, hempty, hvalue]
  rfl

/-- A number that fits its width is padded to it. -/
theorem length_padded (hwidth : 0 < width) (h : n < Nat.pow 10 width) :
    (padded width n).toList.length = width := by
  have hle : (Nat.toDigits 10 n).length ≤ width :=
    (Nat.length_toDigits_le_iff (by decide) hwidth).2 h
  rw [toList_padded, List.length_append, List.length_replicate]
  omega

/-! ## Splitting -/

/-- A number before a character that is no digit is split off if another number follows. -/
theorem pieces_append {sep : Char} {rest : List Char} {width' n' : Nat}
    (hsep : Text.isDecimalDigit sep = false) (count : Nat) :
    pieces (count + 1) ((padded width n).toList ++ sep :: ((padded width' n').toList ++ rest)) =
      (padded width n).toList :: pieces count ((padded width' n').toList ++ rest) := by
  have hdigits : ∀ c ∈ (padded width n).toList, Text.isDecimalDigit c = true :=
    fun c hc => Text.isDecimalDigit_of_isDigit (isDigit_of_mem_padded hc)
  obtain ⟨c, cs, hcs, hc⟩ := exists_padded_eq_cons width' n'
  rw [pieces, List.takeWhile_append_of_pos hdigits, List.dropWhile_append_of_pos hdigits, hcs]
  simp [hsep, hc]

/-- Seconds and microseconds read back. -/
theorem seconds?_append {second micros : Nat} (hsecond : second < 60) (hmicros : micros < 1000000) :
    seconds? ((padded 2 second).toList ++
      (if micros = 0 then "" else "." ++ padded 6 micros).toList) = some (second, micros) := by
  have hlength : (padded 2 second).toList.length = 2 :=
    length_padded (by decide) (Nat.lt_trans hsecond (by decide))
  have hsplit : ∀ rest, ((padded 2 second).toList ++ rest).splitAt 2 = ((padded 2 second).toList, rest) := by
    intro rest
    rw [List.splitAt_eq, List.take_left' hlength, List.drop_left' hlength]
  rw [seconds?, hsplit]
  by_cases hzero : micros = 0
  · -- Without microseconds there is no point.
    rw [if_pos hzero, hzero]
    show (if _ then (Text.natural? _).map (·, 0) else none) = _
    rw [if_pos hlength, natural?_padded]
    rfl
  · have hplaces : (padded 6 micros).toList.length = 6 := length_padded (by decide) hmicros
    -- With them a point and six places follow.
    have hpoint : ("." ++ padded 6 micros).toList = '.' :: (padded 6 micros).toList :=
      String.toList_append ..
    rw [if_neg hzero, hpoint]
    show (if (padded 6 micros).toList.length = 6 then _ else none) = _
    rw [if_pos hplaces, natural?_padded, natural?_padded]

/-- The ISO text shows all of the moment: its year is written with four digits and no sign, and its time is
a whole number of microseconds, fewer than a million of them after the second. -/
structure IsShown (m : Moment) : Prop where
  /-- The year is not negative. -/
  year_nonneg : 0 ≤ m.year
  /-- The year has at most four digits. -/
  year_le : m.year ≤ 9999
  /-- The time is not within a leap second. -/
  nanos_lt : m.nanos < 1000000000
  /-- The microseconds are whole. -/
  nanos_mod : m.nanos % 1000 = 0

/-- A year of four digits has no sign. -/
theorem yearText_eq {year : Int} (hnonneg : 0 ≤ year) (hle : year ≤ 9999) :
    yearText year = padded 4 year.natAbs := by
  rw [yearText, if_neg (Int.not_lt.2 hnonneg), if_neg (Int.not_lt.2 hle)]
  exact String.empty_append

/-- The characters of an ISO text that shows all of the moment. -/
theorem toList_isoText {m : Moment} (h : m.IsShown) : m.isoText.toList =
    (padded 4 m.year.natAbs).toList ++ '-' :: ((padded 2 m.month).toList ++ '-' ::
      ((padded 2 m.day).toList ++ 'T' :: ((padded 2 m.hour).toList ++ ':' ::
        ((padded 2 m.minute).toList ++ ':' :: ((padded 2 m.second).toList ++
          (if m.nanos / 1000 = 0 then "" else "." ++ padded 6 (m.nanos / 1000)).toList))))) := by
  have hsecond : m.second + m.nanos / 1000000000 = m.second := by
    rw [Nat.div_eq_of_lt h.nanos_lt, Nat.add_zero]
  rw [isoText, clockText, yearText_eq h.year_nonneg h.year_le, hsecond]
  simp [fractionText]

/-- The ISO text of a moment reads back if it shows all of the moment. -/
theorem read?_isoText {m : Moment} (hvalid : m.IsValid) (h : m.IsShown) : read? m.isoText = some m := by
  have ⟨_, _, _, _, _, _, hsecond, _⟩ := hvalid
  have hdash : Text.isDecimalDigit '-' = false := by decide
  have hletter : Text.isDecimalDigit 'T' = false := by decide
  have hcolon : Text.isDecimalDigit ':' = false := by decide
  have hmicros : m.nanos / 1000 < 1000000 := by
    have hnanos := h.nanos_lt
    omega
  -- The text is split at the hyphens, the letter and the colons, and the seconds are what is left.
  obtain ⟨rest, hparts, hseconds⟩ : ∃ rest, pieces 5 m.isoText.toList = [(padded 4 m.year.natAbs).toList,
      (padded 2 m.month).toList, (padded 2 m.day).toList, (padded 2 m.hour).toList,
      (padded 2 m.minute).toList, rest] ∧ seconds? rest = some (m.second, m.nanos / 1000) := by
    refine ⟨_, ?_, seconds?_append hsecond hmicros⟩
    rw [toList_isoText h, pieces_append hdash, pieces_append hdash, pieces_append hletter,
      pieces_append hcolon, pieces_append hcolon, pieces]
  -- Neither the year nor the nanoseconds lose anything as numbers in the text.
  have hyear : (m.year.natAbs : Int) = m.year := Int.natAbs_of_nonneg h.year_nonneg
  have hnanos : 1000 * (m.nanos / 1000) = m.nanos :=
    Nat.mul_div_cancel' (Nat.dvd_of_mod_eq_zero h.nanos_mod)
  unfold read?
  rw [hparts]
  simpa [natural?_padded, hseconds, hyear, hnanos] using hvalid

/-! ## Texts that are refused -/

/-- A text that starts with a separator is refused. -/
theorem read?_eq_none_of_separator {s : String} {c : Char} {cs : List Char} (hs : s.toList = c :: cs)
    (hc : Text.isDecimalDigit c = false) : read? s = none := by
  -- The piece in front of the separator is empty, and no number.
  obtain ⟨rest, hpieces⟩ : ∃ rest, pieces 5 s.toList = [] :: rest := by
    rw [hs, pieces, List.takeWhile_cons, List.dropWhile_cons, hc]
    exact ⟨_, rfl⟩
  have hempty : Text.natural? [] = none := rfl
  rw [read?, hpieces]
  simp [hempty]

/-- The text of a year that is negative or has more than four digits starts with a sign. -/
theorem exists_isoText_eq_cons {m : Moment} (hyear : m.year < 0 ∨ 9999 < m.year) :
    ∃ c cs, m.isoText.toList = c :: cs ∧ Text.isDecimalDigit c = false := by
  rcases hyear with hyear | hyear
  · -- A negative year.
    obtain ⟨cs, hcs⟩ : ∃ cs, m.isoText.toList = '-' :: cs := by
      rw [isoText, clockText, yearText, if_pos hyear]
      simp
    exact ⟨'-', cs, hcs, by decide⟩
  · -- A year beyond 9999.
    obtain ⟨cs, hcs⟩ : ∃ cs, m.isoText.toList = '+' :: cs := by
      rw [isoText, clockText, yearText, if_neg (by omega), if_pos hyear]
      simp
    exact ⟨'+', cs, hcs, by decide⟩

/-- The ISO text of a moment in such a year is refused. -/
theorem read?_isoText_eq_none {m : Moment} (hyear : m.year < 0 ∨ 9999 < m.year) :
    read? m.isoText = none := by
  obtain ⟨c, cs, hcs, hc⟩ := exists_isoText_eq_cons hyear
  exact read?_eq_none_of_separator hcs hc

end FlatRecord.Moment
