import FlatRecord.Validator

/-!
# Conversions

Rules that turn a value into one of a certain kind: numbers, flags, texts, dates and choices.
-/

namespace FlatRecord.Conversion

/-- A refusal of a value. -/
def refuse (complaint : Complaint) : Except Signal Datum := .error (.invalid complaint)

/-- A whole number; fractions are cut off. -/
def integer (d : Datum) : Except Signal Datum := (d.toInteger.mapError .invalid).map .ofInt

/-- A whole number; fractions are refused, and a blank text becomes null. -/
def exactInteger : Datum → Except Signal Datum
  | .missing => refuse .missing
  | .value (.bool b) => .ok (.ofInt (if b then 1 else 0))
  | .value (.int n) => if Text.fitsSigned64 n then .ok (.ofInt n) else refuse .inexactInteger
  | .value (.float x) => match x.truncate? with
    | some n => if x.isWhole && x.isBelow63 then .ok (.ofInt n) else refuse .inexactInteger
    | none => refuse .inexactInteger
  | .value (.str s) =>
    let s := Text.trim s
    if s.isEmpty then .ok (.value .null)
    else match Text.integer64? s with
      | some n => .ok (.ofInt n)
      | none => refuse .inexactInteger
  | .value _ => refuse .inexactInteger

/-- A whole number that is not negative, or a blank text. -/
def naturalNumber (d : Datum) : Except Signal Datum :=
  match exactInteger d with
  | .ok (.value (.int n)) => if n < 0 then refuse .negative else .ok (.ofInt n)
  | result => result

/-- The texts that stand for a set flag. -/
def truthy : List String := ["true", "yes", "t", "y", "1"]

/-- A flag; what is missing or null is not set, and texts are compared without regard to case. -/
def flag : Datum → Except Signal Datum
  | .missing => .ok (.value (.bool false))
  | .value .null => .ok (.value (.bool false))
  | .value (.bool b) => .ok (.value (.bool b))
  | .value json => match (Datum.value json).toText with
    | .ok text => .ok (.value (.bool (truthy.any fun t => t.toList = text.toList.map Char.toLower)))
    | .error complaint => refuse complaint

/-- A text. -/
def text (d : Datum) : Except Signal Datum := (d.toText.mapError .invalid).map .ofString

/-- A text without blanks at its ends; other values stay as they are. -/
def stripped : Datum → Except Signal Datum
  | .value (.str s) => .ok (.ofString (Text.trim s))
  | d => .ok d

/-- The ISO text of a date; the empty text becomes null. -/
def isoDate : Datum → Except Signal Datum
  | .value (.str s) =>
    if s.isEmpty then .ok (.value .null)
    else match Moment.read? s with
      | some m => .ok (.ofString m.isoText)
      | none => refuse .badDate
  | _ => refuse .badDate

/-- One of some values, unchanged. -/
def oneOf (choices : List Json) : Datum → Except Complaint Datum
  | .missing => .error .missing
  | .value json =>
    if choices.any (·.agrees json) then .ok (.value json) else .error (.notAChoice choices json)

end FlatRecord.Conversion
