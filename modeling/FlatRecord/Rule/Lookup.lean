import FlatRecord.Validator

/-!
# Lookups

Rules that ask the session for rows, and a rule that looks for items of a list with the same text in
a field.
-/

namespace FlatRecord.Lookup

/-- The text of a value has to be the id of a row of a kind. -/
def rowExists (kind : String) (d : Datum) (c : Context) : Except Signal Datum :=
  match d.toText with
  | .error complaint => .error (.invalid complaint)
  | .ok id => match c.requireSession.bind (·.get? kind id) with
    | .ok (some _) => .ok d
    | .ok none => .error (.invalid (.notFound kind))
    | .error e => .error (.invalid (.store e))

/-- The text in the field `id` of an object. -/
def idOf? : Json → Option String
  | .obj fields => (Ascending.get? "id" fields).bind Json.str?
  | _ => none

/-- The id of the row that a record describes: that of the object that the context has under the
name of the kind, else the one in the field `id` beside the key. -/
def ownId? (kind : String) (key : Key) (w : Work) : Option String :=
  ((w.context.values.get? kind).bind idOf?).or (w.datum (key.parent.field "id")).str?

/-- Whether a row with a name stands in the way of a record: it is not the record's own row, and it
is not deleted. -/
def isRival (own : Option String) (row : Row) : Bool :=
  !(own.isSome && row.id? = own) && row.state? ≠ some "deleted"

/-- A name has to be free among the rows of a kind, the record's own row and deleted rows apart. -/
def nameUnique (kind : String) (key : Key) (w : Work) : Work × Option Signal :=
  match (w.datum key).str? with
  | none => (w, none)
  | some name =>
    match w.context.requireSession.bind (·.findFirst? kind [("name", .text name)]) with
    | .error e => (w, some (.invalid (.store e)))
    | .ok none => (w, none)
    | .ok (some row) =>
      if isRival (ownId? kind key w) row then (w.report key Complaint.nameTaken.message, none)
      else (w, none)

/-- The texts in a field of the items of a list that are not marked as deleted, in key order. -/
def liveTexts (list field : String) (data : FlatData) : List String :=
  data.entries.filterMap fun entry =>
    match entry.1.segments with
    | [.field l, .index i, .field f] =>
      let deleted := (data.get? ⟨[.field l, .index i, .field "deleted"]⟩).getD .missing
      if l = list && f = field && deleted.isEmpty then entry.2.toText.toOption else none
    | _ => none

/-- How often each text occurs. -/
def countTexts (texts : List String) : SortedMap String Nat :=
  texts.foldl (fun counts text => counts.alter text fun n => some (n.getD 0 + 1)) ∅

/-- Reports every text that several live items of a list have in a field, under a key named after
the list. -/
def duplicateKey (list field : String) (_ : Key) (w : Work) : Work × Option Signal :=
  let repeated := (countTexts (liveTexts list field w.data)).filter fun _ count => count > 1
  let target := Key.root.field (list ++ "_validation")
  (repeated.keys.foldl (fun w text => w.report target (Complaint.duplicate text).message) w, none)

end FlatRecord.Lookup
