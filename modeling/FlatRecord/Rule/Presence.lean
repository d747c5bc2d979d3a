import FlatRecord.Validator

/-!
# Presence

Rules on whether a field has a value: required fields, dropped fields, defaults, and what happens to
the fields that a schema does not name.
-/

namespace FlatRecord.Presence

/-- Goes on with the chain. -/
def proceed (w : Work) : Work × Option Signal := (w, none)

/-- Ends the chain. -/
def halt (w : Work) : Work × Option Signal := (w, some .stop)

/-- The key of another field of the same object. -/
def sibling (key : Key) (name : String) : Key := key.parent.field name

/-- Reports a missing value and ends the chain. -/
def require (key : Key) (w : Work) : Work × Option Signal :=
  halt (w.report key Complaint.missing.message)

/-- A field has to be supplied; null and the empty text will do. -/
def notMissing (key : Key) (w : Work) : Work × Option Signal :=
  if (w.datum key).isMissing then require key w else proceed w

/-- A field has to be filled in. -/
def notEmpty (key : Key) (w : Work) : Work × Option Signal :=
  if (w.datum key).isEmpty then require key w else proceed w

/-- Drops the field and ends the chain. -/
def ignore (key : Key) (w : Work) : Work × Option Signal := halt (w.remove key)

/-- Drops a field that is missing or null and ends its chain. -/
def ignoreMissing (key : Key) (w : Work) : Work × Option Signal :=
  let d := w.datum key
  if d.isMissing || d.isNull then ignore key w else proceed w

/-- Drops a field that is not filled in and ends its chain. -/
def ignoreEmpty (key : Key) (w : Work) : Work × Option Signal :=
  if (w.datum key).isEmpty then ignore key w else proceed w

/-- What a field that was not expected is called: the object in a control slot by the names in it,
any other field by its own name. -/
def unexpectedName (key : Key) (d : Datum) : String :=
  match d, key.last? with
  | .value (.obj fields), some (.control _) => ", ".intercalate (fields.map (·.1))
  | _, some last => last.name
  | _, none => ""

/-- Drops a field and reports it if it was filled in. -/
def empty (key : Key) (w : Work) : Work × Option Signal :=
  let d := w.datum key
  let dropped := w.remove key
  if d.isEmpty then proceed dropped
  else proceed (dropped.report key (Complaint.unexpected (unexpectedName key d)).message)

/-- The fields of an object. -/
def bucketFields : Datum → List (String × Json)
  | .value (.obj fields) => fields
  | _ => []

/-- Moves the fields in a slot to the object that the slot belongs to. -/
def keepExtras (key : Key) (w : Work) : Work × Option Signal :=
  let writes := (bucketFields (w.datum key)).map fun f => (sibling key f.1, Datum.value f.2)
  proceed (w.patch ⟨writes, [key]⟩)

/-- Whether a default takes the place of the value: it is missing, null or the empty text. -/
def isBlank : Datum → Bool
  | .missing => true
  | .value .null => true
  | .value (.str s) => s.isEmpty
  | .value _ => false

/-- Supplies a value where there is none. -/
def default (value : Json) (key : Key) (w : Work) : Work × Option Signal :=
  if isBlank (w.datum key) then proceed (w.store key (.value value)) else proceed w

/-- Copies another field of the object into a field that is not filled in. -/
def ifEmptySameAs (other : String) (key : Key) (w : Work) : Work × Option Signal :=
  if (w.datum key).isEmpty then proceed (w.store key (w.datum (sibling key other))) else proceed w

/-- A field and another one of the object have to be filled in both. -/
def bothNotEmpty (other : String) (key : Key) (w : Work) : Work × Option Signal :=
  if (w.datum key).isEmpty || (w.datum (sibling key other)).isEmpty then require key w
  else proceed w

end FlatRecord.Presence
