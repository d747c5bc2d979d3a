import FlatRecord.Json
import FlatRecord.Json.Document

/-!
# Reading values

A document stands for a value unless a text in it has half a surrogate pair or a number is too large
for a floating-point number. Of the fields with one name the last counts.
-/

namespace FlatRecord.Json

/-! ## Numbers

A number without a point and an exponent is a whole number if it fits 64 bits, with or without a
sign. All other numbers, and minus zero, are floating-point numbers. Their digits are read as a
whole number as far as it stays below `2 ^ 64`. It is rounded, and then scaled by the power of ten
that the point, the exponent and the digits without room make up. -/

/-- Appends digits to a number as long as it stays below `2 ^ 64`. The second result counts the
digits without room. -/
def appendDigits (n : Nat) : List Char → Nat × Nat
  | [] => (n, 0)
  | c :: rest =>
    let longer := 10 * n + (c.toNat - '0'.toNat)
    if longer < 0x10000000000000000 then appendDigits longer rest else (n, rest.length + 1)

/-- The floating-point number that digits stand for; there is none for those that are too large. -/
def floatOf? (negative : Bool) (digits : List Char) : Option Binary64 :=
  let (whole, places, rest) := Decimal.split digits
  let (n, unreadWhole) := appendDigits 0 whole
  let (n, unreadPlaces) := appendDigits n places
  match Decimal.exponent? rest with
  | some exponent =>
    (Binary64.ofRatio negative n 1).scale?
      (exponent + unreadWhole - (places.length - unreadPlaces : Nat))
  | none => none

/-- The number that an optional minus sign and digits stand for. -/
def ofNumber? (cs : List Char) : Option Json :=
  let (negative, digits) := match cs with
    | '-' :: rest => (true, rest)
    | cs => (false, cs)
  match (Text.integer? cs).filter fun n => Text.fits64 n && !(negative && n = 0) with
  | some n => some (int n)
  | none => (floatOf? negative digits).map float

/-! ## Values -/

mutual

/-- The value that a document stands for. -/
def ofDocument? : Document → Option Json
  | .null => some null
  | .bool b => some (bool b)
  | .number text => ofNumber? text
  | .quoted text => (Document.decode? text).map fun cs => str (.ofList cs)
  | .list items => (ofItems? items).map arr
  | .object fields => (ofFields? fields).map fun l => obj (SortedMap.ofList l).entries
termination_by structural d => d

/-- The values of the items of a list. -/
def ofItems? : List Document → Option (List Json)
  | [] => some []
  | d :: rest => match ofDocument? d, ofItems? rest with
    | some x, some xs => some (x :: xs)
    | _, _ => none
termination_by structural d => d

/-- The names and values of the fields of an object, as they are written. -/
def ofFields? : List (List Char × Document) → Option (List (String × Json))
  | [] => some []
  | (name, d) :: rest => match Document.decode? name, ofDocument? d, ofFields? rest with
    | some n, some x, some xs => some ((.ofList n, x) :: xs)
    | _, _, _ => none
termination_by structural d => d

end

/-- Reads a text that holds one value. -/
def read? (s : String) : Option Json := (Document.read? s).bind ofDocument?

end FlatRecord.Json
