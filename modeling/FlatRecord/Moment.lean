import FlatRecord.Text

/-!
# Points in time

A `Moment` is a date of the Gregorian calendar, extended to all years before and after, with a time
of day in nanoseconds and no time zone. `IsValid` says that the date exists and the time is within a
day; a leap second is counted on from the second before it, with `10 ^ 9` nanoseconds and more. The
ISO text of a moment has the microseconds only when they are not zero, and a sign before years that
are negative or have more than four digits. Reading takes any separators, but no sign.
-/

namespace FlatRecord

/-- A date and a time of day. -/
structure Moment where
  /-- The year. -/
  year : Int
  /-- The month, from 1 on. -/
  month : Nat
  /-- The day of the month, from 1 on. -/
  day : Nat
  /-- The hour. -/
  hour : Nat := 0
  /-- The minute. -/
  minute : Nat := 0
  /-- The second. -/
  second : Nat := 0
  /-- The nanoseconds after the second, from `10 ^ 9` on within a leap second. -/
  nanos : Nat := 0
  deriving DecidableEq, Inhabited

namespace Moment

/-! ## Calendar -/

/-- The first year of the calendar. -/
def firstYear : Int := -262143

/-- The last year of the calendar. -/
def lastYear : Int := 262142

/-- Whether a year has 366 days. -/
def isLeap (year : Int) : Bool := year % 4 = 0 && (year % 100 ≠ 0 || year % 400 = 0)

/-- The number of days of a month; zero for a month that does not exist. -/
def daysInMonth (year : Int) (month : Nat) : Nat :=
  if month ∈ [1, 3, 5, 7, 8, 10, 12] then 31
  else if month ∈ [4, 6, 9, 11] then 30
  else if month = 2 then (if isLeap year then 29 else 28)
  else 0

/-- The date is in the calendar and the time is within a day, leap seconds included. -/
def IsValid (m : Moment) : Prop :=
  firstYear ≤ m.year ∧ m.year ≤ lastYear ∧ 1 ≤ m.day ∧ m.day ≤ daysInMonth m.year m.month ∧
    m.hour < 24 ∧ m.minute < 60 ∧ m.second < 60 ∧ m.nanos < 2000000000

/-- Whether a moment is in the calendar can be computed. -/
instance (m : Moment) : Decidable m.IsValid := inferInstanceAs (Decidable (_ ∧ _))

/-! ## Order -/

/-- The parts of a moment, the most significant first. -/
def parts (m : Moment) : List Int :=
  [m.year, m.month, m.day, m.hour, m.minute, m.second, m.nanos]

/-- Whether a moment is before another or the same. -/
def le (a b : Moment) : Bool := (compare a.parts b.parts).isLE

/-- The later of two moments. -/
def later (a b : Moment) : Moment := if a.le b then b else a

/-! ## Text -/

/-- The digits of a number, filled up with zeros to a width. -/
def padded (width n : Nat) : String :=
  let digits := Nat.toDigits 10 n
  .ofList (List.replicate (width - digits.length) '0' ++ digits)

/-- The text of a year, with a sign if it is negative or has more than four digits. -/
def yearText (year : Int) : String :=
  (if year < 0 then "-" else if year > 9999 then "+" else "") ++ padded 4 year.natAbs

/-- The ISO text of a moment up to the second, such as `2024-03-01T12:30:05`. A leap second is the
next one after the second that it is counted from. -/
def clockText (m : Moment) : String :=
  yearText m.year ++ "-" ++ padded 2 m.month ++ "-" ++ padded 2 m.day ++ "T" ++ padded 2 m.hour ++
    ":" ++ padded 2 m.minute ++ ":" ++ padded 2 (m.second + m.nanos / 1000000000)

/-- A fraction of a second after its point. -/
def fractionText (width n : Nat) : String := "." ++ padded width n

/-- The ISO text of a moment, such as `2024-03-01T12:30:05.250000`. The microseconds of a leap second
have a seventh digit. -/
def isoText (m : Moment) : String :=
  m.clockText ++ (if m.nanos / 1000 = 0 then "" else fractionText 6 (m.nanos / 1000))

/-! ## Reading

The text is split at the runs of characters that are no decimal digits, at most five times. The
first five pieces are the year, the month, the day, the hour and the minute; the last two may be
missing. What follows the fifth separator is two digits of seconds and, after a point, six digits of
microseconds or nothing. All digits have to be ASCII digits. -/

/-- The pieces between the first `n` separators; the last piece is all that follows. -/
def pieces : Nat → List Char → List (List Char)
  | 0, cs => [cs]
  | n + 1, cs =>
    let rest := cs.dropWhile Text.isDecimalDigit
    if rest.isEmpty then [cs]
    else cs.takeWhile Text.isDecimalDigit ::
      pieces n (rest.dropWhile fun c => !Text.isDecimalDigit c)

/-- The seconds and microseconds at the end of a text. -/
def seconds? (cs : List Char) : Option (Nat × Nat) :=
  match cs.splitAt 2 with
  | (second, []) => if second.length = 2 then (Text.natural? second).map (·, 0) else none
  | (second, '.' :: micros) =>
    if micros.length = 6 then
      match Text.natural? second, Text.natural? micros with
      | some s, some u => some (s, u)
      | _, _ => none
    else none
  | _ => none

/-- Reads a moment; a text that names no moment of the calendar is refused. -/
def read? (s : String) : Option Moment := do
  let parts := pieces 5 s.toList
  let numbers ← (parts.take 5).mapM Text.natural?
  let (second, micros) ← match parts[5]? with
    | some rest => seconds? rest
    | none => some (0, 0)
  match numbers with
  | year :: month :: day :: time =>
    let m : Moment :=
      ⟨year, month, day, time.getD 0 0, time.getD 1 0, second, 1000 * micros⟩
    if m.IsValid then some m else none
  | _ => none

/-- The wording of the refusal of a text. -/
def refusal (s : String) : String := "unable to parse '" ++ s ++ "' as a date"

end Moment

end FlatRecord
