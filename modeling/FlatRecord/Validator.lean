import FlatRecord.Context
import FlatRecord.Datum
import FlatRecord.Key

/-!
# Validators

A validator is applied to a key of a record under validation. Three kinds of validators convert the
value under the key: a missing entry is handed to them as missing, and what they make of it is
stored. The fourth kind sees and edits everything. A complaint is recorded under the key and the
chain goes on; a stop ends the chain of the key, and of that key alone.
-/

namespace FlatRecord

/-- The values of a record under validation. -/
abbrev FlatData := SortedMap Key Datum

/-- The messages recorded under each key, the first message first. -/
abbrev Messages := SortedMap Key (List String)

/-- A record under validation. -/
structure Work where
  /-- The values. -/
  data : FlatData
  /-- The messages. -/
  messages : Messages
  /-- The context of the call. -/
  context : Context

namespace Work

/-- The value under a key; no entry is a missing value. -/
def datum (w : Work) (key : Key) : Datum := (w.data.get? key).getD .missing

/-- Stores a value under a key. -/
def store (w : Work) (key : Key) (d : Datum) : Work := { w with data := w.data.insert key d }

/-- Removes the entry under a key. -/
def remove (w : Work) (key : Key) : Work := { w with data := w.data.erase key }

/-- Records a message under a key, after those that are there. -/
def report (w : Work) (key : Key) (message : String) : Work :=
  { w with messages := w.messages.alter key fun old => some (old.getD [] ++ [message]) }

end Work

/-- What a validator may answer instead of a value. -/
inductive Signal where
  /-- The value is not as it should be; the chain goes on. -/
  | invalid (complaint : Complaint)
  /-- The rest of the chain is skipped. -/
  | stop
  deriving Inhabited

/-- A step in the chain of a key. -/
inductive Validator where
  /-- Converts the value, knowing the context, and does not stop the chain. -/
  | stateful (convert : Datum → Context → Except Complaint Datum)
  /-- Converts the value. -/
  | converter (convert : Datum → Except Signal Datum)
  /-- Converts the value, knowing the context. -/
  | valueContext (convert : Datum → Context → Except Signal Datum)
  /-- Edits the record, the messages and the context, and answers with a signal or none. -/
  | context (act : Key → Work → Work × Option Signal)

/-- The validators of a key in the order in which they run. -/
abbrev Chain := List Validator

namespace Validator

/-- The name of the kind of validator. -/
def kind : Validator → String
  | stateful _ => "stateful"
  | converter _ => "converter"
  | valueContext _ => "value_context"
  | context _ => "context"

/-- Whether the validator converts the value under its key and does nothing else. -/
def isValueValidator : Validator → Bool
  | context _ => false
  | _ => true

/-- What a validator makes of a value; validators that edit the record make nothing of it. -/
def convert (v : Validator) (d : Datum) (c : Context) : Except Signal Datum :=
  match v with
  | stateful f => (f d c).mapError .invalid
  | converter f => f d
  | valueContext f => f d c
  | context _ => .ok d

/-- Records a complaint under the key; the flag says whether the chain stops. -/
def settle (key : Key) (w : Work) : Option Signal → Work × Bool
  | none => (w, false)
  | some (.invalid complaint) => (w.report key complaint.message, false)
  | some .stop => (w, true)

/-- Stores a converted value, or settles the signal in its place. -/
def storeResult (key : Key) (w : Work) : Except Signal Datum → Work × Bool
  | .ok d => (w.store key d, false)
  | .error signal => settle key w (some signal)

/-- Applies a validator to a key; the flag says whether the chain stops. -/
def apply (v : Validator) (key : Key) (w : Work) : Work × Bool :=
  match v with
  | context act =>
    let (w, signal) := act key w
    settle key w signal
  | v => storeResult key w (v.convert (w.datum key) w.context)

end Validator

/-- Runs the chain of a key up to and including the first validator that stops it. -/
def Chain.run (key : Key) : Chain → Work → Work
  | [], w => w
  | v :: rest, w =>
    let (w, stopped) := v.apply key w
    if stopped then w else Chain.run key rest w

/-! ## Patches

A `Patch` collects edits of a record that are to be made together: first all removals, then the
writes in order. -/

/-- Edits of a record. -/
structure Patch where
  /-- The values to be stored, in order. -/
  writes : List (Key × Datum) := []
  /-- The keys to be removed. -/
  removals : List Key := []
  deriving DecidableEq, Inhabited

namespace Patch

/-- Adds a write. -/
def set (p : Patch) (key : Key) (d : Datum) : Patch := { p with writes := p.writes ++ [(key, d)] }

/-- Adds a removal. -/
def remove (p : Patch) (key : Key) : Patch := { p with removals := p.removals ++ [key] }

/-- Whether there is nothing to edit. -/
def isEmpty (p : Patch) : Bool := p.writes.isEmpty && p.removals.isEmpty

/-- The keys that are written, in order. -/
def writtenKeys (p : Patch) : List Key := p.writes.map (·.1)

/-- Makes the edits. -/
def apply (p : Patch) (data : FlatData) : FlatData :=
  (p.removals.foldl SortedMap.erase data).insertMany p.writes

end Patch

/-- Makes the edits of a patch. -/
def Work.patch (w : Work) (p : Patch) : Work := { w with data := p.apply w.data }

end FlatRecord
