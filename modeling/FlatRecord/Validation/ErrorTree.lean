import FlatRecord.Record.Nested
import FlatRecord.Validator

/-!
# Error trees

The messages of a run in the form of the record: a list of texts in the place of each value with
messages. Where a list and one of its items have messages, the messages without a text below the
list are left out, so that the list keeps its own. Pruning takes away what holds no message; in a
list of objects an item without messages stays as an empty object, so that the others keep their
positions.
-/

namespace FlatRecord

namespace Messages

/-- The keys with messages. -/
def flagged (m : Messages) : List Key := (m.entries.filter fun e => !e.2.isEmpty).map (·.1)

/-- Leaves out the empty message lists below keys with messages. -/
def unshadow (m : Messages) : Messages :=
  let flagged := m.flagged
  m.filter fun key messages =>
    !messages.isEmpty ||
      !flagged.any fun above => above.length < key.length && key.startsWith above

/-- The message lists as values. -/
def toFlat (m : Messages) : FlatValues := m.map Json.ofStrings

end Messages

namespace Json

/-- Whether a value is the object without fields. -/
def isEmptyObject : Json → Bool
  | obj [] => true
  | _ => false

mutual

/-- What is left of a value; nothing if no message is in it. -/
def prune : Json → Option Json
  | obj fields => match pruneFields fields with
    | [] => none
    | fields => some (obj fields)
  | arr items =>
    if items.any isObject then
      let pruned := pruneItems items
      if pruned.all isEmptyObject then none else some (arr pruned)
    else if items.isEmpty then none
    else some (arr items)
  | null => some null
  | bool b => some (bool b)
  | int n => some (int n)
  | float x => some (float x)
  | str s => some (str s)
termination_by structural v => v

/-- The fields with something left. -/
def pruneFields : List (String × Json) → List (String × Json)
  | [] => []
  | (name, value) :: rest => match prune value with
    | some kept => (name, kept) :: pruneFields rest
    | none => pruneFields rest
termination_by structural l => l

/-- The items, with an empty object for each one with nothing left. -/
def pruneItems : List Json → List Json
  | [] => []
  | value :: rest => (prune value).getD (obj []) :: pruneItems rest
termination_by structural l => l

end

end Json

/-- The error tree without the parts that hold no message. -/
def Record.prune (r : Record) : Record := .ofList (Json.pruneFields r.entries)

/-- The error tree of a run. -/
def Messages.tree (m : Messages) : Record := Record.prune (FlatValues.nest m.unshadow.toFlat)

end FlatRecord
