import FlatRecord.Record.Flatten

/-!
# Nested records from flat ones

The entries of a flat record are placed in a `Tree` in key order, so that a value is placed before
the values below it; a value in the way of a longer key gives way to it. A node whose children are
all list positions is a list, and the gaps between its positions are closed; any other node is an
object. The whole is an object in any case.
-/

namespace FlatRecord

/-- The values of a flat record by the segments of their keys. -/
inductive Tree where
  /-- A value. -/
  | leaf (value : Json)
  /-- The nodes below, in the order of their segments. -/
  | branch (children : List (Segment × Tree))
  deriving Inhabited

namespace Tree

/-- The nodes below a node. -/
def children : Tree → List (Segment × Tree)
  | leaf _ => []
  | branch children => children

/-- Places a value at the end of a path and makes a branch of every node on the way. -/
def insert (value : Json) : List Segment → Tree → Tree
  | [], _ => leaf value
  | s :: path, t => branch (Ascending.alter s
      (fun child => some (insert value path (child.getD (branch [])))) t.children)

/-- Places the value of an entry; the root has no place of its own. -/
def place (t : Tree) (key : Key) (value : Json) : Tree :=
  if key.isRoot then t else t.insert value key.segments

/-- The tree of a flat record. -/
def ofFlat (flat : FlatValues) : Tree :=
  flat.entries.foldl (fun t entry => t.place entry.1 entry.2) (branch [])

/-- The fields of an object whose values are known by their segments. Of two segments with one name
the later counts. -/
def namedFields (values : List (Segment × Json)) : Record :=
  .ofList (values.map fun v => (v.1.name, v.2))

/-- The list or the object of the values of the children. -/
def assemble (values : List (Segment × Json)) : Json :=
  if !values.isEmpty && values.all (·.1.isIndex) then .arr (values.map (·.2))
  else .ofRecord (namedFields values)

mutual

/-- The value of a tree. -/
def toJson : Tree → Json
  | leaf value => value
  | branch children => assemble (childValues children)
termination_by structural t => t

/-- The values of the children. -/
def childValues : List (Segment × Tree) → List (Segment × Json)
  | [] => []
  | (s, t) :: rest => (s, toJson t) :: childValues rest
termination_by structural t => t

end

/-- The record of a tree. -/
def toRecord (t : Tree) : Record := namedFields (childValues t.children)

end Tree

/-- The nested form of a flat record. -/
def FlatValues.nest (flat : FlatValues) : Record := (Tree.ofFlat flat).toRecord

end FlatRecord
