import FlatRecord.Json.Writer
import FlatRecord.Store.Memory

/-!
# Complaints

What is wrong with a value of a record. `Complaint.message` is the wording that a caller reads.
-/

namespace FlatRecord

/-- What is wrong with a value. -/
inductive Complaint where
  /-- A value is required. -/
  | missing
  /-- The value is no whole number, not even after cutting off a fraction. -/
  | notInteger
  /-- The value is no number. -/
  | notNumber
  /-- The value is not exactly a whole number. -/
  | inexactInteger
  /-- The number is negative. -/
  | negative
  /-- The text is no date. -/
  | badDate
  /-- The value is none of the choices. -/
  | notAChoice (choices : List Json) (value : Json)
  /-- The name is no text. -/
  | nameNotText
  /-- The name has another use. -/
  | nameReserved
  /-- The name is too short. -/
  | nameTooShort (least : Nat)
  /-- The name is too long. -/
  | nameTooLong (most : Nat)
  /-- The name has characters that names do not have. -/
  | nameCharacters
  /-- The tag is too short. -/
  | tagTooShort (tag : String) (least : Nat)
  /-- The tag is too long. -/
  | tagTooLong (tag : String) (most : Nat)
  /-- The tag has characters that tags do not have. -/
  | tagCharacters (tag : String)
  /-- Tags are neither a text nor a list. -/
  | tagsNotListed
  /-- The fields have no place in the schema. -/
  | unexpected (names : String)
  /-- There is no row of the kind. -/
  | notFound (kind : String)
  /-- Another row has the name. -/
  | nameTaken
  /-- Several items have the text in a field. -/
  | duplicate (text : String)
  /-- The rows could not be asked. -/
  | store (error : StoreError)
  /-- A complaint in the words of whoever has it. -/
  | other (words : String)
  deriving Inhabited

namespace Complaint

/-- A choice in the list of choices: a text as it is, other values as compact text. -/
def choiceText : Json → String
  | .str s => s
  | value => value.write

/-- The wording of a complaint. -/
def message : Complaint → String
  | missing => "Missing value"
  | notInteger => "Please enter an integer value"
  | notNumber => "Please enter a number"
  | inexactInteger => "Invalid integer"
  | negative => "Must be a natural number"
  | badDate => "Date format incorrect"
  | notAChoice choices value =>
    "Value must be one of: " ++ "; ".intercalate (choices.map choiceText) ++ " (not '" ++
      choiceText value ++ "')"
  | nameNotText => "Names must be strings"
  | nameReserved => "That name cannot be used"
  | nameTooShort least => "Must be at least " ++ toString least ++ " characters long"
  | nameTooLong most => "Name must be a maximum of " ++ toString most ++ " characters long"
  | nameCharacters =>
    "Must be purely lowercase alphanumeric (ascii) characters and these symbols: -_"
  | tagTooShort tag least => "Tag \"" ++ tag ++ "\" length is less than minimum " ++ toString least
  | tagTooLong tag most => "Tag \"" ++ tag ++ "\" length is more than maximum " ++ toString most
  | tagCharacters tag => "Tag \"" ++ tag ++ "\" must be alphanumeric characters or symbols: -_."
  | tagsNotListed => "Tags must be a string or a list"
  | unexpected names => "The input field " ++ names ++ " was not expected."
  | notFound kind => "Not found: " ++ kind
  | nameTaken => "That name is already in use."
  | duplicate text => "Duplicate key \"" ++ text ++ "\""
  | store error => error.message
  | other words => words

end Complaint

end FlatRecord
