import FlatRecord.Json
import FlatRecord.Key

/-!
# Flattening

A flat record holds the values of a nested record under their keys. A list whose first item is an
object is *expanded*: each of its items has to be an object, and the fields of the items are entries
of their own. Every other value is one entry, a list of texts as well as an object or the empty
list. The first item of an expanded list that is not an object is reported, in the order in which
the values are read: fields by name, items by position, and what is inside an item before the next
item.
-/

namespace FlatRecord

/-- The values of a record under their keys. -/
abbrev FlatValues := SortedMap Key Json

/-- Why a record as a whole cannot be used. -/
inductive StructureError where
  /-- An expanded list has an item that is not an object. -/
  | mixedList (item : Key)
  /-- A value of the named kind is where the schema has a list of objects. -/
  | misplaced (key : Key) (found : String)
  /-- The record is not an object but a value of the named kind. -/
  | notAnObject (found : String)
  deriving DecidableEq, Inhabited

namespace StructureError

/-- The wording of an error. -/
def message : StructureError → String
  | mixedList item => "Values in lists need to be dicts (at " ++ item.text ++ ")"
  | misplaced key found =>
    "Only lists of dicts can be placed against subschema " ++ key.text ++ ", not " ++ found
  | notAnObject found => "expected an object at the top level, got " ++ found

end StructureError

namespace Json

/-- Whether the fields of the items of a list are entries of their own. -/
def isExpanded : List Json → Bool
  | obj _ :: _ => true
  | _ => false

mutual

/-- The entries of a value. -/
def entriesAt (key : Key) : Json → Except StructureError (List (Key × Json))
  | arr items => if isExpanded items then itemEntries key 0 items else .ok [(key, arr items)]
  | null => .ok [(key, null)]
  | bool b => .ok [(key, bool b)]
  | int n => .ok [(key, int n)]
  | float x => .ok [(key, float x)]
  | str s => .ok [(key, str s)]
  | obj fields => .ok [(key, obj fields)]
termination_by structural v => v

/-- The entries of the fields of an object. -/
def fieldEntries (key : Key) : List (String × Json) → Except StructureError (List (Key × Json))
  | [] => .ok []
  | (name, value) :: rest => do
    let here ← entriesAt (key.field name) value
    let others ← fieldEntries key rest
    return here ++ others
termination_by structural v => v

/-- The entries of the items of an expanded list, the first of which has the given position. -/
def itemEntries (key : Key) (position : Nat) :
    List Json → Except StructureError (List (Key × Json))
  | [] => .ok []
  | obj fields :: rest => do
    let here ← fieldEntries (key.index position) fields
    let others ← itemEntries key (position + 1) rest
    return here ++ others
  | _ :: _ => .error (.mixedList (key.index position))
termination_by structural v => v

end

end Json

/-- The flat form of a record. -/
def Record.flatten (r : Record) : Except StructureError FlatValues :=
  (Json.fieldEntries .root r.entries).map .ofList

end FlatRecord
