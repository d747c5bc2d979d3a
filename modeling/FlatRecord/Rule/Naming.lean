import FlatRecord.Text
import FlatRecord.Validator

/-!
# Names and tags

A name is 2 to 100 characters of lower-case ASCII letters, digits, `-` and `_`, and not one of the
names with another use. A tag is 2 to 100 word characters, blanks, `-` and `.`. Tags written in one
text, with commas between them, are spread over the items of a list.
-/

namespace FlatRecord.Naming

/-- The least number of characters of a name or tag. -/
def leastLength : Nat := 2

/-- The greatest number of characters of a name or tag. -/
def greatestLength : Nat := 100

/-- The names with another use. -/
def reserved : List String := ["new", "edit", "search"]

/-- Whether names have the character. -/
def isNameChar (c : Char) : Bool := c.isLower || c.isDigit || c = '_' || c = '-'

/-- Whether tags have the character. -/
def isTagChar (c : Char) : Bool := Text.isWord c || c = ' ' || c = '-' || c = '.'

/-- What is wrong with a name; of several faults the first in the order of the tests. -/
def nameFault? (name : String) : Option Complaint :=
  if reserved.contains name then some .nameReserved
  else if name.length < leastLength then some (.nameTooShort leastLength)
  else if name.length > greatestLength then some (.nameTooLong greatestLength)
  else if name.toList.all isNameChar then none
  else some .nameCharacters

/-- What is wrong with the length of a tag. -/
def tagLengthFault? (tag : String) : Option Complaint :=
  if tag.length < leastLength then some (.tagTooShort tag leastLength)
  else if tag.length > greatestLength then some (.tagTooLong tag greatestLength)
  else none

/-- What is wrong with the characters of a tag. -/
def tagCharacterFault? (tag : String) : Option Complaint :=
  if tag.toList.all isTagChar then none else some (.tagCharacters tag)

/-- What is wrong with a tag; the length is tested first. -/
def tagFault? (tag : String) : Option Complaint :=
  (tagLengthFault? tag).or (tagCharacterFault? tag)

/-- Lets a value pass unless there is a complaint. -/
def passUnless (d : Datum) : Option Complaint → Except Signal Datum
  | some complaint => .error (.invalid complaint)
  | none => .ok d

/-- Lets a name pass. -/
def name (d : Datum) : Except Signal Datum :=
  match d.str? with
  | some s => passUnless d (nameFault? s)
  | none => .error (.invalid .nameNotText)

/-- Lets a value pass whose text has a fault or not. -/
def passText (fault? : String → Option Complaint) (d : Datum) : Except Signal Datum :=
  match d.toText with
  | .ok s => passUnless d (fault? s)
  | .error complaint => .error (.invalid complaint)

/-- Lets a tag pass that has a proper length. -/
def tagLength : Datum → Except Signal Datum := passText tagLengthFault?

/-- Lets a tag pass that has proper characters. -/
def tagCharacters : Datum → Except Signal Datum := passText tagCharacterFault?

/-! ## Tags in one text -/

/-- The pieces of a text between commas. -/
def commaPieces : List Char → List (List Char)
  | [] => [[]]
  | c :: rest =>
    if c = ',' then [] :: commaPieces rest
    else match commaPieces rest with
      | piece :: pieces => (c :: piece) :: pieces
      | [] => [[c]]

/-- The tags in a text: the pieces between commas without blanks at their ends, but not the empty
ones. -/
def splitTags (s : String) : List String :=
  ((commaPieces s.toList).map Text.trimBlank |>.filter (!·.isEmpty)).map .ofList

/-- The tags of a value: those in a text, or the texts of the items of a list. -/
def tagsOf : Datum → Except Complaint (List String)
  | .value (.str s) => .ok (splitTags s)
  | .value (.arr items) => items.mapM fun item => (Datum.value item).toText
  | .value .null => .ok []
  | .missing => .ok []
  | .value _ => .error .tagsNotListed

/-- The position after that of a key with three segments that starts in a list, else zero. -/
def positionAfter (list : String) (key : Key) : Nat :=
  match key.segments with
  | [.field name, .index i, _] => if name = list then i + 1 else 0
  | _ => 0

/-- The first position of a list after all that are in use. -/
def nextPosition (list : String) (data : FlatData) : Nat :=
  (data.keys.map (positionAfter list)).foldl max 0

/-- The key of the name of an item of a list. -/
def itemName (list : String) (position : Nat) : Key :=
  ⟨[.field list, .index position, .field "name"]⟩

/-- The entries of tags at positions from `next` on. -/
def tagEntries (list : String) (next : Nat) : List String → List (Key × Datum)
  | [] => []
  | tag :: rest => (itemName list next, .ofString tag) :: tagEntries list (next + 1) rest

/-- Adds the tags of a value to a list, each as an item with a name, and reports the faulty ones
under the key of the value. -/
def spreadTags (list : String) (key : Key) (w : Work) : Work × Option Signal :=
  match tagsOf (w.datum key) with
  | .error complaint => (w, some (.invalid complaint))
  | .ok tags =>
    let spread := w.patch ⟨tagEntries list (nextPosition list w.data) tags, []⟩
    ((tags.filterMap tagFault?).foldl (fun w complaint => w.report key complaint.message) spread,
      none)

end FlatRecord.Naming
