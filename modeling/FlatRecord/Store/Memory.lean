import FlatRecord.SortedMap
import FlatRecord.Store.Row

/-!
# The store

A `Store` has two layers of tables. Rows that were added lie in the staged layer, in front of the
committed rows with the same id, until `commit` moves them or `rollback` drops them. A row is filed
under the name of its kind and its id; it is marked clean when it is filed.
-/

namespace FlatRecord

/-- Why rows could not be read or stored. -/
inductive StoreError where
  /-- There is no session to ask. -/
  | noSession
  /-- The value so described does not fit the column of the type. -/
  | unfit (kind column : String) (type : ColumnType) (found : String)
  /-- The row is of another kind than the one it is stored as. -/
  | wrongKind (expected found : String)
  /-- The session reports a failure. -/
  | backend (reason : String)
  deriving DecidableEq, Inhabited

namespace StoreError

/-- The wording of an error. -/
def message : StoreError → String
  | noSession => "no storage session in context"
  | unfit kind column type found =>
    "cannot store " ++ found ++ " in " ++ kind ++ "." ++ column ++ " (" ++ type.name ++ ")"
  | wrongKind expected found =>
    "row of kind '" ++ found ++ "' cannot be stored as '" ++ expected ++ "'"
  | backend reason => "storage backend error: " ++ reason

end StoreError

/-- Rows by id, in order of insertion. -/
abbrev Table := Listing String Row

/-- Tables by the name of their kind. -/
abbrev Layer := SortedMap String Table

namespace Layer

/-- The table of a kind; a kind without rows has the empty one. -/
def table (l : Layer) (kind : String) : Table := (l.get? kind).getD ∅

/-- Files a row under an id. -/
def file (l : Layer) (id : String) (row : Row) : Layer :=
  l.insert row.kind ((l.table row.kind).put id row)

/-- The number of rows. -/
def rowCount (l : Layer) : Nat := l.values.foldl (fun n table => n + table.size) 0

end Layer

/-- Tables in two layers. -/
structure Store where
  /-- The rows that are stored for good. -/
  committed : Layer := ∅
  /-- The rows that wait for a commit. -/
  staged : Layer := ∅
  deriving DecidableEq, Inhabited

namespace Store

/-- Puts a row into the committed layer; a row without a text id is filed under the empty one. -/
def seed (s : Store) (row : Row) : Store :=
  { s with committed := s.committed.file (row.id?.getD "") row.clean }

/-- Stages a row, which has to have a text id. -/
def add (s : Store) (row : Row) : Except StoreError Store :=
  match row.id? with
  | some id => .ok { s with staged := s.staged.file id row.clean }
  | none => .error (.backend (row.kind ++ " row has no id"))

/-- Moves the staged rows into the committed layer. -/
def commit (s : Store) : Store :=
  ⟨s.staged.entries.foldl
    (fun l e => l.insert e.1 ((l.table e.1).putMany e.2.entries)) s.committed, ∅⟩

/-- Drops the staged rows. -/
def rollback (s : Store) : Store := { s with staged := ∅ }

/-- The number of staged rows. -/
def stagedCount (s : Store) : Nat := s.staged.rowCount

/-- The visible row of a kind under an id. -/
def get? (s : Store) (kind id : String) : Option Row :=
  match (s.staged.table kind).get? id with
  | some row => some row
  | none => (s.committed.table kind).get? id

/-- The visible rows of a kind: the staged ones, then the committed ones that no staged row with the
same id is in front of. -/
def rows (s : Store) (kind : String) : List Row :=
  let staged := s.staged.table kind
  staged.values ++
    ((s.committed.table kind).entries.filter fun e => !staged.contains e.1).map (·.2)

/-- The first visible row of a kind that holds every cell of a filter. -/
def findFirst? (s : Store) (kind : String) (filter : List (String × Cell)) : Option Row :=
  (s.rows kind).find? (·.isMatch filter)

end Store

end FlatRecord
