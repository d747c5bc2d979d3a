import FlatRecord.Context

/-!
# Rows as records

A row is rendered as a record of its columns, those for bookkeeping left out. Every rendered row
raises the watermark of the context to its time of revision, also a row that a list then leaves out.
Lists are sorted by a key of the records, and records with equal keys keep their order.
-/

namespace FlatRecord

universe u

variable {κ : Type u}

/-- The columns that no record shows. -/
def hiddenColumns : List String := ["current", "expired_timestamp", "expired_id", "continuity_id"]

namespace Row

/-- The columns of a row as a record. -/
def toRecord (r : Row) : Record :=
  .ofList ((r.cells.entries.filter fun e => !hiddenColumns.contains e.1).map fun e =>
    (e.1, e.2.toJson))

/-- The time of revision of a row. -/
def revised? (r : Row) : Option Moment := (r.get? "revision_timestamp").bind Cell.moment?

/-- Renders a row; the overrides take the place of columns or stand beside them. -/
def render (r : Row) (overrides : Record) (c : Context) : Record × Context :=
  (r.toRecord.insertMany overrides.entries,
    match r.revised? with
    | some time => c.raiseWatermark time
    | none => c)

end Row

/-- A row in a list, with the capacity that it has in its parent or without one. -/
structure ListedRow where
  /-- The row. -/
  row : Row
  /-- The capacity. -/
  capacity : Option String := none
  deriving DecidableEq

namespace ListedRow

/-- The fields that a list adds to a record. -/
def overrides (item : ListedRow) (c : Context) : Record :=
  match c.withCapacity, item.capacity with
  | true, some capacity => SortedMap.insert ∅ "capacity" (.str capacity)
  | _, _ => ∅

/-- Whether a list shows the row: in an active context its state is `active`, `pending` or none. -/
def isShown (item : ListedRow) (c : Context) : Bool :=
  !c.active || match item.row.state? with
    | none => true
    | some state => state = "active" || state = "pending"

end ListedRow

/-- The text of a field by which records are sorted; records without the field come first. -/
def sortText (field : String) (r : Record) : String :=
  match r.get? field with
  | some (.str s) => s
  | some value => value.write
  | none => ""

/-- Sorts records by a key, records with equal keys in the order given. -/
def sortRecords [Ord κ] (key : Record → κ) (records : List Record) : List Record :=
  records.mergeSort fun a b => (compare (key a) (key b)).isLE

/-- Renders rows in order and keeps the records of those that a list shows. -/
def renderShown (c : Context) : List ListedRow → List Record × Context
  | [] => ([], c)
  | item :: rest =>
    let (record, c) := item.row.render (item.overrides c) c
    let (records, last) := renderShown c rest
    (if item.isShown c then record :: records else records, last)

/-- Renders a list of rows, sorted by a key of their records. -/
def renderList [Ord κ] (items : List ListedRow) (key : Record → κ) (c : Context) :
    List Record × Context :=
  let (records, c) := renderShown c items
  (sortRecords key records, c)

/-- Renders all rows of a collection, in order. -/
def renderEach (c : Context) : List Row → List Record × Context
  | [] => ([], c)
  | row :: rest =>
    let (record, c) := row.render ∅ c
    let (records, c) := renderEach c rest
    (record :: records, c)

/-- Renders all rows of a collection, sorted by a key of their records. -/
def renderAll [Ord κ] (rows : List Row) (key : Record → κ) (c : Context) :
    List Record × Context :=
  let (records, c) := renderEach c rows
  (sortRecords key records, c)

end FlatRecord
