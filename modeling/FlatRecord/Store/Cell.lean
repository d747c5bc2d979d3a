import FlatRecord.Binary64
import FlatRecord.Json.Writer
import FlatRecord.Moment
import FlatRecord.Text

/-!
# Cells

A cell is a value in a column of a row. `Cell.coerce?` is how a record's value becomes a cell of a
declared type, and `Cell.toJson` how a cell is shown in a record. Null fits every type. Text that
stands for a number may have blanks around it.
-/

namespace FlatRecord

/-- The declared type of a column. -/
inductive ColumnType where
  /-- Texts. -/
  | text
  /-- Whole numbers of 64 bits. -/
  | int
  /-- Floating-point numbers. -/
  | float
  /-- Flags. -/
  | bool
  /-- Points in time. -/
  | moment
  /-- Any value of a record. -/
  | json
  deriving DecidableEq, Inhabited

namespace ColumnType

/-- The name of the type, as messages give it. -/
def name : ColumnType → String
  | text => "text"
  | int => "int"
  | float => "float"
  | bool => "bool"
  | moment => "datetime"
  | json => "json"

end ColumnType

/-- A value in a column of a row. -/
inductive Cell where
  /-- No value. -/
  | null
  /-- A flag. -/
  | bool (value : Bool)
  /-- A whole number. -/
  | int (value : Int)
  /-- A floating-point number. -/
  | float (value : Binary64)
  /-- A text. -/
  | text (value : String)
  /-- A point in time. -/
  | moment (value : Moment)
  /-- A value of a record as it is. -/
  | json (value : Json)
  deriving DecidableEq, Inhabited

namespace Cell

/-- Whether two cells hold the same value; floating-point numbers are compared as numbers, so
not-a-number is never the same. -/
def same : Cell → Cell → Bool
  | null, null => true
  | bool a, bool b => a = b
  | int a, int b => a = b
  | float a, float b => a.sameNumber b
  | text a, text b => a = b
  | moment a, moment b => a = b
  | json a, json b => a.agrees b
  | _, _ => false

/-- A text in a column of a type. -/
def ofText? (s : String) : ColumnType → Option Cell
  | .text => some (text s)
  | .int => (Text.integer64? (Text.trim s)).map int
  | .float => (Binary64.numeral? (Text.trim s)).map float
  | .bool =>
    let lower := s.toList.map Char.toLower
    if lower = "true".toList then some (bool true)
    else if lower = "false".toList then some (bool false)
    else none
  | .moment => (Moment.read? s).map moment
  | .json => some (json (.str s))

/-- A number in a column of a type. -/
def ofNumber? (n : Json) : ColumnType → Option Cell
  | .text => some (text n.write)
  | .int => n.integer64?.map int
  | .float => n.binary64?.map float
  | .json => some (json n)
  | _ => none

/-- A flag in a column of a type. -/
def ofBool? (b : Bool) : ColumnType → Option Cell
  | .text => some (text (Json.bool b).write)
  | .int => some (int (if b then 1 else 0))
  | .bool => some (bool b)
  | .json => some (json (.bool b))
  | _ => none

/-- A value of a record in a column of a type, if it fits. -/
def coerce? (value : Json) (type : ColumnType) : Option Cell :=
  match value with
  | .null => some null
  | .bool b => ofBool? b type
  | .int n => ofNumber? (.int n) type
  | .float x => ofNumber? (.float x) type
  | .str s => ofText? s type
  | .arr items => if type = .json then some (json (.arr items)) else none
  | .obj fields => if type = .json then some (json (.obj fields)) else none

/-- What messages call a value that does not fit a column. -/
def describe : Json → String
  | .str s => "'" ++ s ++ "'"
  | value => value.typeName

/-- A cell as a value of a record. -/
def toJson : Cell → Json
  | null => .null
  | bool b => .bool b
  | int n => .int n
  | float x => .str (x.text Binary64.plainLayout)
  | text s => .str s
  | moment m => .str m.isoText
  | json value => value

/-- The text of a text cell. -/
def text? : Cell → Option String
  | text s => some s
  | _ => none

/-- The point in time of a cell that holds one. -/
def moment? : Cell → Option Moment
  | moment m => some m
  | _ => none

end Cell

end FlatRecord
