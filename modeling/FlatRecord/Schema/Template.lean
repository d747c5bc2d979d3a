import FlatRecord.Schema

/-!
# Templates

The template of a schema lists the chains of all its nodes under keys without list positions:
`tags.name` is the chain of the field `name` of each object in the list `tags`. The prefixes of
these keys tell which nodes of a record the schema knows.
-/

namespace FlatRecord

/-- Chains under keys without list positions. -/
abbrev Template := List (Key × Chain)

namespace Schema

/-- The chains in the slots of the node at a key. -/
def slotEntries (s : Schema) (key : Key) : List (Key × Chain) :=
  nodeSlots.filterMap fun c => (s.control? c).map fun chain => (key.slot c, chain)

/-- The chain of the junk slot, which counts at the root only. -/
def junkEntries (s : Schema) : List (Key × Chain) :=
  (s.junk.map fun chain => (Key.root.slot .junk, chain)).toList

mutual

/-- The chains of a node and of all nodes in it. -/
def entriesUnder (key : Key) : Schema → List (Key × Chain)
  | ⟨fields, before, after, extras, junk⟩ =>
    fieldEntriesUnder key fields ++ slotEntries ⟨fields, before, after, extras, junk⟩ key
termination_by structural s => s

/-- The chains of a field. -/
def nodeEntriesUnder (key : Key) : Node → List (Key × Chain)
  | .leaf chain => [(key, chain)]
  | .sub schema => entriesUnder key schema
termination_by structural n => n

/-- The chains of some fields. -/
def fieldEntriesUnder (key : Key) : List (String × Node) → List (Key × Chain)
  | [] => []
  | (name, node) :: rest => nodeEntriesUnder (key.field name) node ++ fieldEntriesUnder key rest
termination_by structural l => l

end

/-- The template of a schema. -/
def template (s : Schema) : Template := s.entriesUnder .root ++ s.junkEntries

end Schema

namespace Template

/-- Whether a key without list positions is that of a schema node with a chain directly under it. -/
def hasNode (t : Template) (shape : Key) : Bool := t.any fun e => e.1.parent = shape

/-- Whether a key without list positions leads to a chain or to a node above one. -/
def leadsOn (t : Template) (shape : Key) : Bool := t.any fun e => e.1.startsWith shape

end Template

end FlatRecord
