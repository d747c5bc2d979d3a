import FlatRecord.Rule.Conversion
import FlatRecord.Rule.Lookup
import FlatRecord.Rule.Naming
import FlatRecord.Rule.Presence

/-!
# Rules

The validators of the library as data. `Rule.validator` says what each of them does.
-/

namespace FlatRecord

/-- A validator of the library. -/
inductive Rule where
  /-- The field has to be supplied. -/
  | notMissing
  /-- The field has to be filled in. -/
  | notEmpty
  /-- The field is dropped. -/
  | ignore
  /-- The field is dropped if it is missing or null. -/
  | ignoreMissing
  /-- The field is dropped if it is not filled in. -/
  | ignoreEmpty
  /-- The field is dropped, and reported if it was filled in. -/
  | empty
  /-- The fields in a slot move to the object of the slot. -/
  | keepExtras
  /-- A value for a field without one. -/
  | default (value : Json)
  /-- The value of another field for a field that is not filled in. -/
  | ifEmptySameAs (other : String)
  /-- The field and another have to be filled in. -/
  | bothNotEmpty (other : String)
  /-- A whole number; fractions are cut off. -/
  | integer
  /-- A whole number without a fraction. -/
  | exactInteger
  /-- A whole number that is not negative. -/
  | naturalNumber
  /-- A flag. -/
  | flag
  /-- A text. -/
  | text
  /-- A text without blanks at its ends. -/
  | stripped
  /-- The ISO text of a date. -/
  | isoDate
  /-- One of some values. -/
  | oneOf (choices : List Json)
  /-- A name. -/
  | name
  /-- A tag of a proper length. -/
  | tagLength
  /-- A tag of proper characters. -/
  | tagCharacters
  /-- The tags of a value become items of a list. -/
  | spreadTags (list : String)
  /-- The id of a row of a kind. -/
  | rowExists (kind : String)
  /-- A name that no other row of a kind has. -/
  | nameUnique (kind : String)
  /-- The items of a list differ in a field. -/
  | duplicateKey (list field : String)

namespace Rule

/-- What a rule does. -/
def validator : Rule → Validator
  | notMissing => .context Presence.notMissing
  | notEmpty => .context Presence.notEmpty
  | ignore => .context Presence.ignore
  | ignoreMissing => .context Presence.ignoreMissing
  | ignoreEmpty => .context Presence.ignoreEmpty
  | empty => .context Presence.empty
  | keepExtras => .context Presence.keepExtras
  | default value => .context (Presence.default value)
  | ifEmptySameAs other => .context (Presence.ifEmptySameAs other)
  | bothNotEmpty other => .context (Presence.bothNotEmpty other)
  | integer => .converter Conversion.integer
  | exactInteger => .converter Conversion.exactInteger
  | naturalNumber => .converter Conversion.naturalNumber
  | flag => .converter Conversion.flag
  | text => .converter Conversion.text
  | stripped => .converter Conversion.stripped
  | isoDate => .converter Conversion.isoDate
  | oneOf choices => .stateful fun d _ => Conversion.oneOf choices d
  | name => .converter Naming.name
  | tagLength => .converter Naming.tagLength
  | tagCharacters => .converter Naming.tagCharacters
  | spreadTags list => .context (Naming.spreadTags list)
  | rowExists kind => .valueContext (Lookup.rowExists kind)
  | nameUnique kind => .context (Lookup.nameUnique kind)
  | duplicateKey list field => .context (Lookup.duplicateKey list field)

end Rule

end FlatRecord
