import FlatRecord.Validator

/-!
# Reports

A `FieldError` is one message with the key it was recorded under and a code for programs. A `Report`
is a list of field errors that is not empty; its text numbers them from one.
-/

namespace FlatRecord

/-- One message about one field. -/
structure FieldError where
  /-- The key of the field. -/
  key : Key
  /-- The message. -/
  message : String
  /-- The kind of error, for programs. -/
  code : String := "invalid"
  deriving DecidableEq, Inhabited

namespace FieldError

/-- The key and the message in one line. -/
def text (e : FieldError) : String :=
  (if e.key.isRoot then "(root)" else e.key.text) ++ ": " ++ e.message

end FieldError

/-- The field errors of a table of messages, in the order of their keys. -/
def Messages.fieldErrors (m : Messages) : List FieldError :=
  m.entries.flatMap fun e => e.2.map fun message => { key := e.1, message }

/-- One field error or more. -/
structure Report where
  /-- The first field error. -/
  first : FieldError
  /-- The others. -/
  others : List FieldError := []
  deriving DecidableEq

namespace Report

/-- The report of some field errors, if there are any. -/
def ofList? : List FieldError → Option Report
  | [] => none
  | e :: rest => some ⟨e, rest⟩

/-- All field errors. -/
def toList (r : Report) : List FieldError := r.first :: r.others

/-- The number of field errors. -/
def size (r : Report) : Nat := r.toList.length

/-- The field errors of one report and then those of another. -/
def combine (r s : Report) : Report := ⟨r.first, r.others ++ s.toList⟩

/-- The field errors of a key. -/
def atKey (r : Report) (key : Key) : List FieldError := r.toList.filter fun e => e.key = key

/-- The field errors with a code. -/
def withCode (r : Report) (code : String) : List FieldError :=
  r.toList.filter fun e => e.code = code

/-- A line for each field error, numbered from `n` on. -/
def lines (n : Nat) : List FieldError → String
  | [] => ""
  | e :: rest => "  " ++ toString n ++ ". " ++ e.text ++ "\n" ++ lines (n + 1) rest

/-- The whole report. -/
def text (r : Report) : String :=
  "Validation failed with " ++ toString r.size ++ " error(s):\n" ++ lines 1 r.toList

end Report

end FlatRecord
