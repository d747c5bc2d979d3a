import FlatRecord.Context

/-!
# Saving records

A record is saved to the row that it describes: the row with its id, else the first row that agrees
with it in a set of identifying columns, else a new row. Its fields are stored in the columns of the
row; lists and fields without a column are left alone. In a pending context a changed row is marked
as pending. Nothing is stored unless everything fits.
-/

namespace FlatRecord

namespace Kind

/-- The id in a record: a text that is not empty, or the text of a number. -/
def idText? : Json → Option String
  | .str s => if s.isEmpty then none else some s
  | .int n => some (Json.int n).write
  | .float x => some (Json.float x).write
  | _ => none

/-- The cells of a record in a set of columns, if it has all of them and they fit. -/
def filterOf? (kind : Kind) (record : Record) (columns : List String) :
    Option (List (String × Cell)) :=
  columns.mapM fun column => do
    let value ← record.get? column
    let cell ← Cell.coerce? value (← kind.columns.get? column)
    return (column, cell)

/-- The first row that agrees with a record in one of the sets of identifying columns. -/
def findUnique (kind : Kind) (record : Record) (session : Session) :
    List (List String) → Except StoreError (Option Row)
  | [] => .ok none
  | columns :: rest =>
    match kind.filterOf? record columns with
    | none => findUnique kind record session rest
    | some filter => do
      match ← session.findFirst? kind.name filter with
      | some row => return some row
      | none => findUnique kind record session rest

/-- The row that a record describes, if it is there. -/
def find (kind : Kind) (record : Record) (session : Session) : Except StoreError (Option Row) := do
  let byId ← match (record.get? idColumn).bind idText? with
    | some id => session.get? kind.name id
    | none => .ok none
  match byId with
  | some row => return some row
  | none => kind.findUnique record session kind.unique

/-- Stores one field of a record in a row. -/
def storeField (kind : Kind) (row : Row) (name : String) (value : Json) : Except StoreError Row :=
  match value, kind.columns.get? name with
  | .arr _, _ => .ok row
  | _, none => .ok row
  | value, some type => match Cell.coerce? value type with
    | some cell => .ok (row.set name cell)
    | none => .error (.unfit kind.name name type (Cell.describe value))

/-- Stores the fields of a record in a row, in the order of their names. -/
def storeFields (kind : Kind) (row : Row) (fields : List (String × Json)) :
    Except StoreError Row :=
  fields.foldlM (fun row field => kind.storeField row field.1 field.2) row

/-- The state of a changed row in a pending context. -/
def pendingState (record : Record) : String :=
  if (record.get? stateColumn).bind Json.str? = some "deleted" then "pending-deleted" else "pending"

/-- Marks a changed row in a pending context. -/
def markPending (row : Row) (record : Record) (c : Context) : Row :=
  if c.pending && row.modified then row.set stateColumn (.text (pendingState record)) else row

/-- Saves a record and answers with the row and the session after it. A new row gets the fresh id,
which no row has so far. -/
def save (kind : Kind) (record : Record) (c : Context) (freshId : String) :
    Except StoreError (Row × Session) := do
  let session ← c.requireSession
  let found ← kind.find record session
  let row := found.getD (Row.fresh kind freshId)
  if row.kind ≠ kind.name then throw (.wrongKind kind.name row.kind)
  let row ← kind.storeFields row record.entries
  let row := markPending row record c
  let session ← session.add row
  return (row, session)

end Kind

end FlatRecord
