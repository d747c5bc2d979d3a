import FlatRecord.Proofs.Moment.Grammar
import FlatRecord.Rule.Conversion
import FlatRecord.Store.Cell

/-!
# Dates that were read and rendered

A date that was read from a text, with any separators, is rendered as its ISO text. In the years up to 9999
this text stands for the same date wherever it is read again: the reader gives the date back, the conversion
to ISO texts leaves the text as it is, and a column of points in time takes it for the cell that it shows. In
the later years of the calendar the text starts with a sign, and all three refuse it
(`Moment.reread_of_read?`).
-/

namespace FlatRecord.Moment

open Conversion (isoDate refuse)

variable {s : String} {m : Moment}

/-! ## Readers of dates -/

/-- A text from which a date is read is not empty. -/
theorem isEmpty_eq_false_of_read? (h : read? s = some m) : s.isEmpty = false := by
  rw [← Bool.not_eq_true, String.isEmpty_iff]
  rintro rfl
  cases h

/-- A text from which a date is read is converted to the ISO text of the date. -/
theorem isoDate_of_read? (h : read? s = some m) : isoDate (.ofString s) = .ok (.ofString m.isoText) := by
  have hempty := isEmpty_eq_false_of_read? h
  simp only [Datum.ofString, isoDate, hempty, h, Bool.false_eq_true, if_false]

/-- A text from which no date is read is refused, unless it is empty. -/
theorem isoDate_of_read?_eq_none (hempty : s.isEmpty = false) (h : read? s = none) :
    isoDate (.ofString s) = refuse .badDate := by
  simp only [Datum.ofString, isoDate, hempty, h, Bool.false_eq_true, if_false]

/-- A column of points in time takes the texts from which a date is read. -/
theorem coerce?_str (s : String) : Cell.coerce? (.str s) .moment = (read? s).map Cell.moment := rfl

/-! ## Rendered dates -/

/-- The ISO text of a date that was read stands for the date, up to the year 9999, when it is read again,
converted again or taken for a cell, and after that year it is refused each time. -/
theorem reread_of_read? (h : read? s = some m) :
    read? m.isoText = (if m.year ≤ 9999 then some m else none) ∧
      isoDate (.ofString s) = .ok (.ofString m.isoText) ∧
      isoDate (.ofString m.isoText) =
        (if m.year ≤ 9999 then .ok (.ofString m.isoText) else refuse .badDate) ∧
      Cell.coerce? (.str s) .moment = some (.moment m) ∧
      Cell.coerce? (Cell.moment m).toJson .moment =
        (if m.year ≤ 9999 then some (.moment m) else none) := by
  have hcell : Cell.coerce? (.str s) .moment = some (.moment m) := by rw [coerce?_str, h]; rfl
  have hshown : (Cell.moment m).toJson = .str m.isoText := rfl
  rw [hshown]
  by_cases hyear : m.year ≤ 9999
  · have hagain : read? m.isoText = some m := read?_isoText (isValid_of_read? h) (isShown_of_read? h hyear)
    simp only [if_pos hyear]
    refine ⟨hagain, isoDate_of_read? h, isoDate_of_read? hagain, hcell, ?_⟩
    rw [coerce?_str, hagain, Option.map_some]
  · -- A later year has a sign in front, which the reader refuses.
    have hlater : 9999 < m.year := Int.not_le.1 hyear
    have hrefused : read? m.isoText = none := read?_isoText_eq_none (.inr hlater)
    have hempty : m.isoText.isEmpty = false := by
      obtain ⟨_, cs, hcs, -⟩ := exists_isoText_eq_cons (.inr hlater)
      rw [← Bool.not_eq_true, String.isEmpty_iff]
      intro h
      rw [h] at hcs
      cases hcs
    simp only [if_neg hyear]
    refine ⟨hrefused, isoDate_of_read? h, isoDate_of_read?_eq_none hempty hrefused, hcell, ?_⟩
    rw [coerce?_str, hrefused, Option.map_none]

/-- A day in a year with a single digit, with a time of day that has microseconds. -/
def leapDay : Moment := ⟨4, 2, 29, 7, 0, 5, 250000⟩

/-- The day in the year 4 reads back, with its microseconds. -/
theorem reread_of_read?_leapDay : read? "4/2/29 at 7h0m05.000250" = some leapDay ∧
    read? leapDay.isoText = some leapDay ∧ leapDay.isoText = "0004-02-29T07:00:05.000250" ∧
    isoDate (.ofString leapDay.isoText) = .ok (.ofString leapDay.isoText) ∧
    Cell.coerce? (Cell.moment leapDay).toJson .moment = some (.moment leapDay) := by
  have hread : read? "4/2/29 at 7h0m05.000250" = some leapDay := by rfl
  obtain ⟨hagain, -, hconverted, -, hcell⟩ := reread_of_read? hread
  exact ⟨hread, hagain, by rfl, hconverted, hcell⟩

/-- The first day after the years with four digits. -/
def laterDay : Moment := ⟨10000, 1, 1, 0, 0, 0, 0⟩

/-- A date in the year 10000 does not survive: all that take its text refuse its ISO text. -/
theorem not_reread_laterDay : read? "10000-01-01" = some laterDay ∧
    isoDate (.ofString "10000-01-01") = .ok (.ofString laterDay.isoText) ∧
    Cell.coerce? (.str "10000-01-01") .moment = some (.moment laterDay) ∧
    laterDay.isoText = "+10000-01-01T00:00:00" ∧ read? laterDay.isoText = none ∧
    isoDate (.ofString laterDay.isoText) = refuse .badDate ∧
    Cell.coerce? (Cell.moment laterDay).toJson .moment = none :=
  ⟨by rfl, by rfl, by rfl, by rfl, by rfl, by rfl, by rfl⟩

end FlatRecord.Moment
