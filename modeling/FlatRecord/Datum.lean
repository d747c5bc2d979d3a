import FlatRecord.Complaint
import FlatRecord.Text
import FlatRecord.Binary64

/-!
# Values under validation

A field that the caller did not supply is `missing`, which is neither null nor the empty text.
Reading a missing value as a text or a number is refused, so that "not supplied" never turns into a
value by accident.
-/

namespace FlatRecord

/-- A value under validation. -/
inductive Datum where
  /-- The field was not supplied. -/
  | missing
  /-- A supplied or converted value. -/
  | value (json : Json)
  deriving DecidableEq, Inhabited

namespace Datum

/-- A text. -/
def ofString (s : String) : Datum := value (.str s)

/-- A whole number. -/
def ofInt (n : Int) : Datum := value (.int n)

/-- Whether the field was not supplied. -/
def isMissing : Datum → Bool
  | missing => true
  | value _ => false

/-- Whether the value is null. -/
def isNull : Datum → Bool
  | value .null => true
  | _ => false

/-- Whether a required field with this value counts as not filled in: missing, null, false, zero,
the empty text, and a list or an object with nothing in it. -/
def isEmpty : Datum → Bool
  | missing => true
  | value .null => true
  | value (.bool b) => !b
  | value (.int n) => n = 0
  | value (.float x) => x.isZero
  | value (.str s) => s.isEmpty
  | value (.arr items) => items.isEmpty
  | value (.obj fields) => fields.isEmpty

/-- The supplied value. -/
def json? : Datum → Option Json
  | missing => none
  | value json => some json

/-- The text of a text value. -/
def str? : Datum → Option String
  | value (.str s) => some s
  | _ => none

/-- The value as a text: texts as they are, null as the empty text, the rest as compact text. -/
def toText : Datum → Except Complaint String
  | missing => .error .missing
  | value (.str s) => .ok s
  | value .null => .ok ""
  | value json => .ok json.write

/-- The value as a whole number of 64 bits. The fraction of a number is cut off, flags are one and
zero, and a text may have blanks around its number. -/
def toInteger : Datum → Except Complaint Int
  | missing => .error .missing
  | value (.int n) => if Text.fitsSigned64 n then .ok n else .error .notInteger
  | value (.float x) => match x.truncate? with
    | some n => if x.isBelow63 then .ok n else .error .notInteger
    | none => .error .notInteger
  | value (.bool b) => .ok (if b then 1 else 0)
  | value (.str s) => match Text.integer64? (Text.trim s) with
    | some n => .ok n
    | none => .error .notInteger
  | value _ => .error .notInteger

/-- The value as a floating-point number. -/
def toBinary64 : Datum → Except Complaint Binary64
  | missing => .error .missing
  | value (.int n) => .ok (.ofInt n)
  | value (.float x) => .ok x
  | value (.str s) => match Binary64.numeral? (Text.trim s) with
    | some x => .ok x
    | none => .error .notNumber
  | value _ => .error .notNumber

end Datum

end FlatRecord
