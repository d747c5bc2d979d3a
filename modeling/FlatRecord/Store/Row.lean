import FlatRecord.Listing
import FlatRecord.Store.Cell

/-!
# Kinds and rows

A `Kind` describes a table: its columns with their types and the sets of columns whose values
together identify a row. Every kind has the column `id`. A `Row` holds a cell for each column and
remembers whether it has been changed since it was loaded; storing an equal cell is no change.
-/

namespace FlatRecord

/-- The column that identifies a row. -/
def idColumn : String := "id"

/-- The column with the stage of a row's life. -/
def stateColumn : String := "state"

/-- The description of a table. -/
structure Kind where
  /-- The name of the kind. -/
  name : String
  /-- The columns in order of declaration. -/
  columns : Listing String ColumnType
  /-- The sets of columns whose values together identify a row. -/
  unique : List (List String)
  deriving DecidableEq

namespace Kind

/-- A kind with the text column `id` alone. -/
def named (name : String) : Kind :=
  ⟨name, (∅ : Listing String ColumnType).put idColumn .text, []⟩

/-- Declares a column; a column of that name changes its type. -/
def column (k : Kind) (name : String) (type : ColumnType) : Kind :=
  { k with columns := k.columns.put name type }

/-- Declares that the values of some columns together identify a row. -/
def identifiedBy (k : Kind) (columns : List String) : Kind :=
  { k with unique := k.unique ++ [columns] }

end Kind

/-- A row of a table. -/
structure Row where
  /-- The name of the kind of the row. -/
  kind : String
  /-- The cells by column. -/
  cells : Listing String Cell
  /-- Whether the row has been changed since it was loaded. -/
  modified : Bool
  deriving DecidableEq

namespace Row

/-- A new row under a fresh id; all other columns are null. A new row counts as changed. -/
def fresh (kind : Kind) (id : String) : Row :=
  let nulls : Listing String Cell := Listing.putMany ∅ (kind.columns.keys.map (·, Cell.null))
  ⟨kind.name, nulls.put idColumn (.text id), true⟩

/-- The cell of a column. -/
def get? (r : Row) (column : String) : Option Cell := r.cells.get? column

/-- Whether a column holds the same value as a cell. -/
def holds (r : Row) (column : String) (cell : Cell) : Bool :=
  match r.get? column with
  | some current => current.same cell
  | none => false

/-- Stores a cell; the row is changed unless the column holds the same value already. -/
def set (r : Row) (column : String) (cell : Cell) : Row :=
  if r.holds column cell then r
  else { r with cells := r.cells.put column cell, modified := true }

/-- The row as it is after loading. -/
def clean (r : Row) : Row := { r with modified := false }

/-- The id, if it is a text. -/
def id? (r : Row) : Option String := (r.get? idColumn).bind Cell.text?

/-- The state, if it is a text. -/
def state? (r : Row) : Option String := (r.get? stateColumn).bind Cell.text?

/-- Whether the row holds every cell of a filter. -/
def isMatch (r : Row) (filter : List (String × Cell)) : Bool :=
  filter.all fun f => r.holds f.1 f.2

end Row

end FlatRecord
