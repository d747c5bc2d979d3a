import FlatRecord.Binary64.Layout
import FlatRecord.Json

/-!
# Values as compact text

No blanks stand between the parts of a value. A text is quoted; a quote, a backslash and the control
characters below the space are escaped, the ones without a short form as `\u00` and two digits.
-/

namespace FlatRecord.Json

/-- A hexadecimal digit in lower case. -/
def hexDigit (n : Nat) : Char := Nat.digitChar (n % 16)

/-- A character between quotes. -/
def escaped (c : Char) : List Char :=
  match c with
  | '"' => ['\\', '"']
  | '\\' => ['\\', '\\']
  | '\x08' => ['\\', 'b']
  | '\x0c' => ['\\', 'f']
  | '\n' => ['\\', 'n']
  | '\r' => ['\\', 'r']
  | '\t' => ['\\', 't']
  | c =>
    if c.toNat < 0x20 then ['\\', 'u', '0', '0', hexDigit (c.toNat / 16), hexDigit c.toNat]
    else [c]

/-- A text between quotes. -/
def quoted (s : String) : String := "\"" ++ .ofList (s.toList.flatMap escaped) ++ "\""

mutual

/-- The compact text of a value. -/
def write : Json → String
  | null => "null"
  | bool b => if b then "true" else "false"
  | int n => toString n
  | float x => x.text Binary64.recordLayout
  | str s => quoted s
  | arr [] => "[]"
  | arr (x :: xs) => "[" ++ write x ++ writeItems xs ++ "]"
  | obj [] => "\x7b\x7d"
  | obj ((name, x) :: xs) => "\x7b" ++ quoted name ++ ":" ++ write x ++ writeFields xs ++ "\x7d"
termination_by structural a => a

/-- The items after the first one, each after a comma. -/
def writeItems : List Json → String
  | [] => ""
  | x :: xs => "," ++ write x ++ writeItems xs
termination_by structural a => a

/-- The fields after the first one, each after a comma. -/
def writeFields : List (String × Json) → String
  | [] => ""
  | (name, x) :: xs => "," ++ quoted name ++ ":" ++ write x ++ writeFields xs
termination_by structural a => a

end

end FlatRecord.Json
