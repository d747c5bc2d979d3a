/-!
# Documents

The grammar of a text that holds one value. A `Document` keeps numbers and quoted texts as they are
written: whether an escape stands for a character, and which number digits stand for, is decided by
whoever uses that part. So a document with parts that nobody uses is accepted whatever they stand
for.
-/

namespace FlatRecord

/-- A value as it is written. -/
inductive Document where
  /-- The word `null`. -/
  | null
  /-- The word `true` or `false`. -/
  | bool (value : Bool)
  /-- The characters of a number. -/
  | number (text : List Char)
  /-- The characters between two quotes, escapes and all. -/
  | quoted (text : List Char)
  /-- The items of a list. -/
  | list (items : List Document)
  /-- The fields of an object in written order; a name may be repeated. -/
  | object (fields : List (List Char × Document))
  deriving Inhabited

namespace Document

/-- The characters that may stand between the parts of a document. -/
def isSpace (c : Char) : Bool := c = ' ' || c = '\n' || c = '\t' || c = '\r'

/-- Whether a character is a hexadecimal digit. -/
def isHexDigit (c : Char) : Bool :=
  c.isDigit || ('a' ≤ c && c ≤ 'f') || ('A' ≤ c && c ≤ 'F')

/-- What follows the spaces. -/
def skipSpace (cs : List Char) : List Char := cs.dropWhile isSpace

/-- The characters up to the closing quote and what follows it. Escapes have one of the known
letters or four hexadecimal digits, and control characters are not allowed. -/
def quotedRest : List Char → Option (List Char × List Char)
  | '"' :: rest => some ([], rest)
  | '\\' :: 'u' :: a :: b :: c :: d :: rest =>
    if isHexDigit a && isHexDigit b && isHexDigit c && isHexDigit d then
      (quotedRest rest).map fun (text, rest) => ('\\' :: 'u' :: a :: b :: c :: d :: text, rest)
    else none
  | '\\' :: c :: rest =>
    if "\"\\/bfnrt".toList.contains c then
      (quotedRest rest).map fun (text, rest) => ('\\' :: c :: text, rest)
    else none
  | c :: rest =>
    if c = '\\' || c.toNat < 0x20 then none
    else (quotedRest rest).map fun (text, rest) => (c :: text, rest)
  | [] => none

/-- One digit or more. -/
def digitsOf (cs : List Char) : Option (List Char × List Char) :=
  let digits := cs.takeWhile Char.isDigit
  if digits.isEmpty then none else some (digits, cs.dropWhile Char.isDigit)

/-- The whole part of a number: a zero alone, or digits that do not start with one. -/
def wholeOf : List Char → Option (List Char × List Char)
  | '0' :: c :: rest => if c.isDigit then none else some (['0'], c :: rest)
  | cs => digitsOf cs

/-- The places after the point, if there is one. -/
def placesOf : List Char → Option (List Char × List Char)
  | '.' :: rest => (digitsOf rest).map fun (digits, rest) => ('.' :: digits, rest)
  | cs => some ([], cs)

/-- The exponent, if there is one. -/
def exponentOf : List Char → Option (List Char × List Char)
  | c :: rest =>
    if c = 'e' || c = 'E' then
      let (sign, rest) := match rest with
        | '+' :: rest => (['+'], rest)
        | '-' :: rest => (['-'], rest)
        | rest => ([], rest)
      (digitsOf rest).map fun (digits, rest) => (c :: sign ++ digits, rest)
    else
      some ([], c :: rest)
  | [] => some ([], [])

/-- A number. -/
def numberOf (cs : List Char) : Option (List Char × List Char) := do
  let (sign, rest) := match cs with
    | '-' :: rest => (['-'], rest)
    | cs => ([], cs)
  let (whole, rest) ← wholeOf rest
  let (places, rest) ← placesOf rest
  let (exponent, rest) ← exponentOf rest
  some (sign ++ whole ++ places ++ exponent, rest)

mutual

/-- A value and what follows it. Of two nested calls at least one uses up a character, so a `fuel`
of more than twice the number of characters is enough. -/
def valueOf : Nat → List Char → Option (Document × List Char)
  | 0, _ => none
  | fuel + 1, cs => match skipSpace cs with
    | 'n' :: 'u' :: 'l' :: 'l' :: rest => some (null, rest)
    | 't' :: 'r' :: 'u' :: 'e' :: rest => some (bool true, rest)
    | 'f' :: 'a' :: 'l' :: 's' :: 'e' :: rest => some (bool false, rest)
    | '"' :: rest => (quotedRest rest).map fun (text, rest) => (quoted text, rest)
    | '[' :: rest => match skipSpace rest with
      | ']' :: rest => some (list [], rest)
      | rest => (itemsOf fuel rest).map fun (items, rest) => (list items, rest)
    | '\x7b' :: rest => match skipSpace rest with
      | '\x7d' :: rest => some (object [], rest)
      | rest => (fieldsOf fuel rest).map fun (fields, rest) => (object fields, rest)
    | cs => (numberOf cs).map fun (text, rest) => (number text, rest)

/-- The items of a list, up to its closing bracket. -/
def itemsOf : Nat → List Char → Option (List Document × List Char)
  | 0, _ => none
  | fuel + 1, cs => do
    let (item, rest) ← valueOf fuel cs
    match skipSpace rest with
    | ',' :: rest => (itemsOf fuel rest).map fun (items, rest) => (item :: items, rest)
    | ']' :: rest => some ([item], rest)
    | _ => none

/-- The fields of an object, up to its closing brace. -/
def fieldsOf : Nat → List Char → Option (List (List Char × Document) × List Char)
  | 0, _ => none
  | fuel + 1, cs => match skipSpace cs with
    | '"' :: rest => do
      let (name, rest) ← quotedRest rest
      match skipSpace rest with
      | ':' :: rest => do
        let (value, rest) ← valueOf fuel rest
        match skipSpace rest with
        | ',' :: rest =>
          (fieldsOf fuel rest).map fun (fields, rest) => ((name, value) :: fields, rest)
        | '\x7d' :: rest => some ([(name, value)], rest)
        | _ => none
      | _ => none
    | _ => none

end

/-- Reads a text that holds one document and nothing else but spaces. -/
def read? (s : String) : Option Document :=
  let cs := s.toList
  match valueOf (2 * cs.length + 2) cs with
  | some (document, rest) => if (skipSpace rest).isEmpty then some document else none
  | none => none

/-- The number of four hexadecimal digits or fewer. -/
def hexValue (cs : List Char) : Nat :=
  cs.foldl (fun n c =>
    16 * n + if c.isDigit then c.toNat - 0x30 else (c.toLower.toNat - 0x61) + 10) 0

/-- The character that a letter after a backslash stands for. -/
def escapedChar : Char → Char
  | 'b' => '\x08'
  | 'f' => '\x0c'
  | 'n' => '\n'
  | 'r' => '\r'
  | 't' => '\t'
  | c => c

/-- The characters that a quoted text stands for. The halves of a surrogate pair stand for one
character together and for none alone. -/
def decode? : List Char → Option (List Char)
  | '\\' :: 'u' :: a :: b :: c :: d :: '\\' :: 'u' :: e :: f :: g :: h :: rest =>
    let high := hexValue [a, b, c, d]
    let low := hexValue [e, f, g, h]
    if 0xd800 ≤ high && high < 0xdc00 then
      if 0xdc00 ≤ low && low < 0xe000 then
        (decode? rest).map (Char.ofNat (0x10000 + (high - 0xd800) * 0x400 + (low - 0xdc00)) :: ·)
      else none
    else if 0xdc00 ≤ high && high < 0xe000 then none
    else (decode? ('\\' :: 'u' :: e :: f :: g :: h :: rest)).map (Char.ofNat high :: ·)
  | '\\' :: 'u' :: a :: b :: c :: d :: rest =>
    let code := hexValue [a, b, c, d]
    if 0xd800 ≤ code && code < 0xe000 then none
    else (decode? rest).map (Char.ofNat code :: ·)
  | '\\' :: c :: rest => (decode? rest).map (escapedChar c :: ·)
  | c :: rest => (decode? rest).map (c :: ·)
  | [] => some []
termination_by cs => cs.length

end Document

end FlatRecord
