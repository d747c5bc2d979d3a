import FlatRecord.Validation.ErrorTree
import FlatRecord.Validation.Phase
import FlatRecord.Validation.Report

/-!
# Validation

A record is flattened, filled up to the schema expanded for it, worked over by the chains in the
order of the schedule, and nested again. The outcome has the converted record and the messages, as a
list and as a tree. Only a record whose structure does not fit has no outcome.
-/

namespace FlatRecord

/-- The result of a validation. -/
structure Outcome where
  /-- The converted record. -/
  data : Record
  /-- The messages in the form of the record. -/
  errors : Record
  /-- The messages with their keys, in key order. -/
  fieldErrors : List FieldError
  /-- What validators have noted. -/
  notes : List String
  deriving DecidableEq

namespace Outcome

/-- Whether no message was recorded. -/
def isValid (o : Outcome) : Bool := o.fieldErrors.isEmpty

/-- The report of the messages, if there are any. -/
def report? (o : Outcome) : Option Report := Report.ofList? o.fieldErrors

end Outcome

/-- What a run starts from: the completed record, and an empty list of messages for every key with a
chain. -/
def startWork (e : Expansion) (data : FlatData) (context : Context) : Work :=
  ⟨data, e.full.map fun _ => [], context⟩

/-- Runs chains one after the other. -/
def runChains (turns : List (Key × Chain)) (w : Work) : Work :=
  turns.foldl (fun w turn => turn.2.run turn.1 w) w

/-- Validates a flat record. Missing entries and keys without messages are part of the result. -/
def validateFlat (flat : FlatValues) (schema : Schema) (context : Context) :
    Except StructureError Work :=
  let e := Expansion.of schema flat
  (e.complete flat).map fun data => runChains (schedule e.full) (startWork e data context)

/-- The supplied values of a record under validation. -/
def FlatData.supplied (data : FlatData) : FlatValues :=
  .ofList (data.entries.filterMap fun e => e.2.json?.map fun value => (e.1, value))

/-- The top-level fields that hold an empty list. -/
def emptyLists (r : Record) : List String := (r.filter fun _ value => value.isEmptyList).keys

/-- Puts empty lists back under names that have no value. -/
def putBack (names : List String) (r : Record) : Record :=
  names.foldl (fun r name => r.insertIfNew name (.arr [])) r

/-- The outcome of a run over a record. -/
def Work.outcome (w : Work) (restored : List String) : Outcome where
  data := putBack restored (FlatData.supplied w.data).nest
  errors := w.messages.tree
  fieldErrors := w.messages.fieldErrors
  notes := w.context.notes

/-- Validates a record. Validators see a context that names the top-level fields of the schema; what
they do to it is not seen by the caller, their notes apart. -/
def validate (r : Record) (schema : Schema) (context : Context) :
    Except StructureError Outcome := do
  let flat ← r.flatten
  let w ← validateFlat flat schema { context with schemaKeys := schema.fieldNames }
  return w.outcome (if context.fixPartialUpdates then emptyLists r else [])

/-- Validates a value, which has to be an object. -/
def validateValue (value : Json) (schema : Schema) (context : Context) :
    Except StructureError Outcome :=
  match value with
  | .obj fields => validate (.ofList fields) schema context
  | other => .error (.notAnObject other.typeName)

/-- Validates records one by one, each with the same context. -/
def validateAll (records : List Record) (schema : Schema) (context : Context) :
    List (Except StructureError Outcome) :=
  records.map fun r => validate r schema context

end FlatRecord
