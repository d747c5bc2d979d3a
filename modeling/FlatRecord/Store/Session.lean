import FlatRecord.Store.Memory

/-!
# Sessions

Rows are looked up and staged through a `Session`: a store in memory, or a `Host`, which answers the
same three calls in any way it likes. What a host answers may depend on the rows that were added to
it so far; two hosts for callers without a store are a session that is out of order and says why,
and a session that has one row for every question and keeps nothing.
-/

namespace FlatRecord

/-- The calls of a session that is kept elsewhere. The first argument of each is the rows added so
far, in the order in which they were added. -/
structure Host where
  /-- The row of a kind under an id. -/
  get? : List Row → String → String → Except StoreError (Option Row)
  /-- The first row of a kind that holds every cell of a filter. -/
  findFirst? : List Row → String → List (String × Cell) → Except StoreError (Option Row)
  /-- Whether a row is taken, and why not if it is refused. -/
  add : List Row → Row → Except StoreError Unit

/-- What rows are looked up in and staged to. -/
inductive Session where
  /-- A store in memory. -/
  | memory (store : Store)
  /-- A session kept elsewhere, and the rows added to it. -/
  | host (calls : Host) (added : List Row)

namespace Session

/-- No call succeeds. -/
def outOfOrder (reason : String) : Session :=
  host ⟨fun _ _ _ => .error (.backend reason), fun _ _ _ => .error (.backend reason),
    fun _ _ => .error (.backend reason)⟩ []

/-- Every look-up finds the row, and added rows are not kept. -/
def pinned (row : Row) : Session :=
  host ⟨fun _ _ _ => .ok (some row), fun _ _ _ => .ok (some row), fun _ _ => .ok ()⟩ []

/-- The row of a kind under an id. -/
def get? (s : Session) (kind id : String) : Except StoreError (Option Row) :=
  match s with
  | memory store => .ok (store.get? kind id)
  | host calls added => calls.get? added kind id

/-- The first row of a kind that holds every cell of a filter. -/
def findFirst? (s : Session) (kind : String) (filter : List (String × Cell)) :
    Except StoreError (Option Row) :=
  match s with
  | memory store => .ok (store.findFirst? kind filter)
  | host calls added => calls.findFirst? added kind filter

/-- Stages a row. -/
def add (s : Session) (row : Row) : Except StoreError Session :=
  match s with
  | memory store => (store.add row).map memory
  | host calls added => (calls.add added row).map fun _ => host calls (added ++ [row])

end Session

end FlatRecord
