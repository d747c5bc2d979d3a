import FlatRecord.Listing
import FlatRecord.Validator

/-!
# Schemas

A `Schema` names the fields of an object, in order of declaration. A field is a leaf with a chain of
validators, or a sub-schema: then its value is a list of objects, and the sub-schema describes each
of them. A schema may also have chains in its control slots. A slot that is not declared and a slot
declared with an empty chain differ: only the latter makes a schema node of its own.
-/

namespace FlatRecord

mutual

/-- The description of an object. -/
structure Schema where
  /-- The fields in order of declaration. -/
  fields : List (String × Node) := []
  /-- The chain before the main phase. -/
  before : Option Chain := none
  /-- The chain after the main phase. -/
  after : Option Chain := none
  /-- The chain of the fields that the schema does not name. -/
  extras : Option Chain := none
  /-- The chain of what is under no accepted node. -/
  junk : Option Chain := none

/-- The description of a field. -/
inductive Node where
  /-- A value with its chain. -/
  | leaf (chain : Chain)
  /-- A list of objects with the description of each of them. -/
  | sub (schema : Schema)

end

namespace Node

/-- The chain of a leaf. -/
def leaf? : Node → Option Chain
  | leaf chain => some chain
  | sub _ => none

/-- The schema of the objects in a list. -/
def sub? : Node → Option Schema
  | leaf _ => none
  | sub schema => some schema

end Node

namespace Schema

/-- Declares a field; one of that name is replaced in its place. -/
def declare (s : Schema) (name : String) (node : Node) : Schema :=
  { s with fields := Listed.put name node s.fields }

/-- The description of a field. -/
def get? (s : Schema) (name : String) : Option Node := Listed.get? name s.fields

/-- The names of the fields in order of declaration. -/
def fieldNames (s : Schema) : List String := s.fields.map (·.1)

/-- The chain in a slot. -/
def control? (s : Schema) : Control → Option Chain
  | .before => s.before
  | .after => s.after
  | .extras => s.extras
  | .junk => s.junk

/-- The sub-schema under a field. -/
def child? (s : Schema) (name : String) : Option Schema := (s.get? name).bind Node.sub?

/-- The schema at the end of a path of fields; list positions are passed over. -/
def follow? (s : Schema) : List Segment → Option Schema
  | [] => some s
  | .field name :: rest => (s.child? name).bind (follow? · rest)
  | .index _ :: rest => s.follow? rest
  | .control _ :: _ => none

/-- The schema of the object at a key. -/
def descend? (s : Schema) (key : Key) : Option Schema := s.follow? key.segments

/-- The slots that any node may declare. The junk slot counts at the root only. -/
def nodeSlots : List Control := [.before, .after, .extras]

mutual

/-- The fields of the schema and of all schemas in it have different names. -/
def Distinct : Schema → Prop
  | ⟨fields, _, _, _, _⟩ => (fields.map (·.1)).Nodup ∧ DistinctFields fields
termination_by structural s => s

/-- The schema of a field has fields of different names. -/
def DistinctNode : Node → Prop
  | .leaf _ => True
  | .sub schema => Distinct schema
termination_by structural n => n

/-- The schemas of some fields have fields of different names. -/
def DistinctFields : List (String × Node) → Prop
  | [] => True
  | (_, node) :: rest => DistinctNode node ∧ DistinctFields rest
termination_by structural l => l

end

end Schema

end FlatRecord
