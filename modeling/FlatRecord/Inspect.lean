import FlatRecord.Context
import FlatRecord.Json.Writer
import FlatRecord.Schema

/-!
# Inspection

One-line texts of schemas and contexts for developers: the name of a type, and its fields in braces.
Chains show the kinds of their validators, and a session shows only whether there is one.
-/

namespace FlatRecord.Inspect

/-- The parts with commas between them. -/
def commas (parts : List String) : String := ", ".intercalate parts

/-- A list of parts. -/
def list (parts : List String) : String := "[" ++ commas parts ++ "]"

/-- A map from texts to parts. -/
def map (parts : List (String × String)) : String :=
  "\x7b" ++ commas (parts.map fun p => p.1 ++ ": " ++ p.2) ++ "\x7d"

/-- A type with named fields. -/
def fields (type : String) (parts : List (String × String)) : String :=
  type ++ " \x7b " ++ commas (parts.map fun p => p.1 ++ ": " ++ p.2) ++ " \x7d"

/-- The hexadecimal digits of a number. -/
def hexText (n : Nat) : String := .ofList (Nat.toDigits 16 n)

/-- A character between quotes; control characters are written by their code points. -/
def escaped (c : Char) : String :=
  match c with
  | '"' => "\\\""
  | '\\' => "\\\\"
  | '\n' => "\\n"
  | '\r' => "\\r"
  | '\t' => "\\t"
  | '\x00' => "\\0"
  | c =>
    if c.toNat < 0x20 || c.toNat = 0x7f then "\\u\x7b" ++ hexText c.toNat ++ "\x7d" else c.toString

/-- A text between quotes. -/
def quoted (s : String) : String := "\"" ++ String.join (s.toList.map escaped) ++ "\""

/-- A flag. -/
def flag (b : Bool) : String := if b then "true" else "false"

/-- A chain. -/
def chain (c : Chain) : String := list (c.map fun v => "Validator::" ++ v.kind)

mutual

/-- A value of a record. -/
def json : Json → String
  | .null => "Null"
  | .bool b => "Bool(" ++ flag b ++ ")"
  | .int n => "Number(" ++ toString n ++ ")"
  | .float x => "Number(" ++ (Json.float x).write ++ ")"
  | .str s => "String(" ++ quoted s ++ ")"
  | .arr items => "Array " ++ list (jsonItems items)
  | .obj fs => "Object " ++ map (jsonFields fs)
termination_by structural v => v

/-- The items of a list. -/
def jsonItems : List Json → List String
  | [] => []
  | x :: rest => json x :: jsonItems rest
termination_by structural l => l

/-- The fields of an object. -/
def jsonFields : List (String × Json) → List (String × String)
  | [] => []
  | (name, x) :: rest => (quoted name, json x) :: jsonFields rest
termination_by structural l => l

end

/-- The declared slots of a schema. -/
def slots (before after extras junk : Option Chain) : List (String × String) :=
  [(Control.before, before), (.after, after), (.extras, extras), (.junk, junk)].filterMap
    fun s => s.2.map fun c => (s.1.name, chain c)

mutual

/-- A schema. -/
def schema : Schema → String
  | ⟨fs, before, after, extras, junk⟩ =>
    fields "Schema" (("fields", map (schemaFields fs)) :: slots before after extras junk)
termination_by structural s => s

/-- The description of a field. -/
def node : Node → String
  | .leaf c => "Leaf(" ++ chain c ++ ")"
  | .sub s => "Sub(" ++ schema s ++ ")"
termination_by structural n => n

/-- The fields of a schema. -/
def schemaFields : List (String × Node) → List (String × String)
  | [] => []
  | (name, n) :: rest => (quoted name, node n) :: schemaFields rest
termination_by structural l => l

end

/-- The fraction of a second, with three, six or nine digits, as many as it takes, and none for a whole
second. -/
def fraction (nanos : Nat) : String :=
  if nanos = 0 then ""
  else if nanos % 1000000 = 0 then Moment.fractionText 3 (nanos / 1000000)
  else if nanos % 1000 = 0 then Moment.fractionText 6 (nanos / 1000)
  else Moment.fractionText 9 nanos

/-- A point in time. -/
def moment (m : Moment) : String := m.clockText ++ fraction (m.nanos % 1000000000)

/-- A point in time or none. -/
def moment? : Option Moment → String
  | some m => "Some(" ++ moment m ++ ")"
  | none => "None"

/-- A context. -/
def context (c : Context) : String :=
  fields "Context" [
    ("session", flag c.session.isSome),
    ("schema_keys", list (c.schemaKeys.map quoted)),
    ("values", map (jsonFields c.values.entries)),
    ("pending", flag c.pending),
    ("allow_partial_update", flag c.allowPartialUpdate),
    ("active", flag c.active),
    ("with_capacity", flag c.withCapacity),
    ("fix_partial_updates", flag c.fixPartialUpdates),
    ("metadata_modified", moment? c.watermark)]

end FlatRecord.Inspect
