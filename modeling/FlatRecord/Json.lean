import FlatRecord.Binary64
import FlatRecord.SortedMap

/-!
# Record values

A `Json` is a value of a record: null, a flag, a number, a text, a list or an object. Whole numbers
and floating-point numbers are different values even when they stand for the same number. A
`Record` is the top level of a record, a map from field names to values; the objects inside it are
association lists, which `Json.Ordered` says to be in ascending order of their names. The reader
and all operations of the library give only ordered values.
-/

namespace FlatRecord

/-- A value of a record. -/
inductive Json where
  /-- No value. -/
  | null
  /-- A flag. -/
  | bool (value : Bool)
  /-- A whole number. -/
  | int (value : Int)
  /-- A floating-point number. -/
  | float (value : Binary64)
  /-- A text. -/
  | str (value : String)
  /-- A list of values. -/
  | arr (items : List Json)
  /-- An object: fields with their names. -/
  | obj (fields : List (String × Json))
  deriving Inhabited

/-- The fields of a whole record. -/
abbrev Record := SortedMap String Json

namespace Json

/-! ## Equality -/

mutual

/-- Decides whether two values are the same. -/
def decideEq : (a b : Json) → Decidable (a = b)
  | null, null => isTrue rfl
  | bool a, bool b => if h : a = b then isTrue (by rw [h]) else isFalse fun e => h (by cases e; rfl)
  | int a, int b => if h : a = b then isTrue (by rw [h]) else isFalse fun e => h (by cases e; rfl)
  | float a, float b =>
    if h : a = b then isTrue (by rw [h]) else isFalse fun e => h (by cases e; rfl)
  | str a, str b => if h : a = b then isTrue (by rw [h]) else isFalse fun e => h (by cases e; rfl)
  | arr a, arr b => match decideEqItems a b with
    | isTrue h => isTrue (by rw [h])
    | isFalse h => isFalse fun e => h (by cases e; rfl)
  | obj a, obj b => match decideEqFields a b with
    | isTrue h => isTrue (by rw [h])
    | isFalse h => isFalse fun e => h (by cases e; rfl)
  | null, bool _ | null, int _ | null, float _ | null, str _ | null, arr _ | null, obj _
  | bool _, null | bool _, int _ | bool _, float _ | bool _, str _ | bool _, arr _ | bool _, obj _
  | int _, null | int _, bool _ | int _, float _ | int _, str _ | int _, arr _ | int _, obj _
  | float _, null | float _, bool _ | float _, int _ | float _, str _ | float _, arr _
  | float _, obj _
  | str _, null | str _, bool _ | str _, int _ | str _, float _ | str _, arr _ | str _, obj _
  | arr _, null | arr _, bool _ | arr _, int _ | arr _, float _ | arr _, str _ | arr _, obj _
  | obj _, null | obj _, bool _ | obj _, int _ | obj _, float _ | obj _, str _ | obj _, arr _ =>
    isFalse nofun
termination_by structural a => a

/-- Decides whether two lists of values are the same. -/
def decideEqItems : (a b : List Json) → Decidable (a = b)
  | [], [] => isTrue rfl
  | x :: xs, y :: ys => match decideEq x y, decideEqItems xs ys with
    | isTrue h, isTrue k => isTrue (by rw [h, k])
    | isFalse h, _ => isFalse fun e => h (by cases e; rfl)
    | _, isFalse k => isFalse fun e => k (by cases e; rfl)
  | [], _ :: _ | _ :: _, [] => isFalse nofun
termination_by structural a => a

/-- Decides whether two lists of fields are the same. -/
def decideEqFields : (a b : List (String × Json)) → Decidable (a = b)
  | [], [] => isTrue rfl
  | (n, x) :: xs, (m, y) :: ys =>
    if h : n = m then
      match decideEq x y, decideEqFields xs ys with
      | isTrue i, isTrue k => isTrue (by rw [h, i, k])
      | isFalse i, _ => isFalse fun e => i (by cases e; rfl)
      | _, isFalse k => isFalse fun e => k (by cases e; rfl)
    else
      isFalse fun e => h (by cases e; rfl)
  | [], _ :: _ | _ :: _, [] => isFalse nofun
termination_by structural a => a

end

/-- Values can be compared for equality. -/
instance : DecidableEq Json := decideEq

mutual

/-- Whether two values agree, floating-point numbers as numbers: the two zeros agree. -/
def agrees : Json → Json → Bool
  | null, null => true
  | bool a, bool b => a = b
  | int a, int b => a = b
  | float a, float b => a.sameNumber b
  | str a, str b => a = b
  | arr a, arr b => agreesItems a b
  | obj a, obj b => agreesFields a b
  | _, _ => false
termination_by structural a => a

/-- Whether two lists agree item by item. -/
def agreesItems : List Json → List Json → Bool
  | [], [] => true
  | x :: xs, y :: ys => agrees x y && agreesItems xs ys
  | _, _ => false
termination_by structural a => a

/-- Whether two objects have the same names and their values agree. -/
def agreesFields : List (String × Json) → List (String × Json) → Bool
  | [], [] => true
  | (n, x) :: xs, (m, y) :: ys => n = m && agrees x y && agreesFields xs ys
  | _, _ => false
termination_by structural a => a

end

/-! ## Order of names -/

mutual

/-- Every object in the value lists its names in strictly ascending order. -/
def Ordered : Json → Prop
  | arr items => OrderedItems items
  | obj fields => Ascending.Sorted fields ∧ OrderedFields fields
  | _ => True
termination_by structural a => a

/-- Every item of a list is ordered. -/
def OrderedItems : List Json → Prop
  | [] => True
  | x :: xs => Ordered x ∧ OrderedItems xs
termination_by structural a => a

/-- Every value of an object is ordered. -/
def OrderedFields : List (String × Json) → Prop
  | [] => True
  | (_, x) :: xs => Ordered x ∧ OrderedFields xs
termination_by structural a => a

end

/-! ## Parts and kinds -/

/-- The name of the kind of value, as messages give it. -/
def typeName : Json → String
  | null => "null"
  | bool _ => "boolean"
  | int _ => "number"
  | float _ => "number"
  | str _ => "string"
  | arr _ => "array"
  | obj _ => "object"

/-- The text of a text value. -/
def str? : Json → Option String
  | str s => some s
  | _ => none

/-- The number as a floating-point number. -/
def binary64? : Json → Option Binary64
  | int n => some (.ofInt n)
  | float x => some x
  | _ => none

/-- The whole number, if it fits 64 bits with a sign. -/
def integer64? : Json → Option Int
  | int n => if Text.fitsSigned64 n then some n else none
  | _ => none

/-- Whether the value is an object. -/
def isObject : Json → Bool
  | obj _ => true
  | _ => false

/-- Whether the value is the list without items. -/
def isEmptyList : Json → Bool
  | arr [] => true
  | _ => false

/-- The value of a record as an object. -/
def ofRecord (r : Record) : Json := obj r.entries

/-- The list of some texts. -/
def ofStrings (texts : List String) : Json := arr (texts.map str)

end Json

end FlatRecord
