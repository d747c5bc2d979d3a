import FlatRecord.Json.Document

/-!
# Settings

The settings of the engine are read from a document: an object, in which unknown names are skipped
and a known one may appear once, or a list with the settings in order, in which those at the end may
be missing. A setting that is not mentioned has its default.
-/

namespace FlatRecord

/-- The settings that hold for all calls. -/
structure Settings where
  /-- Whether empty lists at the top of a record are put back after validation. -/
  fixPartialUpdates : Bool := true
  deriving DecidableEq, Inhabited

namespace Settings

/-- The name of the one setting. -/
def fixPartialUpdatesName : String := "fix_partial_updates"

/-- Takes over the fields of an object one after the other; `seen` says that the setting has been
given. -/
def ofFields? (seen : Bool) (settings : Settings) : List (List Char × Document) → Option Settings
  | [] => some settings
  | (name, value) :: rest => do
    let name ← Document.decode? name
    if name = fixPartialUpdatesName.toList then
      match seen, value with
      | false, .bool b => ofFields? true ⟨b⟩ rest
      | _, _ => none
    else
      ofFields? seen settings rest

/-- The settings that a document stands for. -/
def ofDocument? : Document → Option Settings
  | .object fields => ofFields? false {} fields
  | .list [] => some {}
  | .list [.bool b] => some ⟨b⟩
  | _ => none

/-- Reads the settings from a text. -/
def read? (s : String) : Option Settings := (Document.read? s).bind ofDocument?

end Settings

/-- Why the settings in a file could not be had. -/
inductive SettingsError where
  /-- The file at the path could not be read, for the reason given. -/
  | unreadable (path reason : String)
  /-- The text is no document with settings. -/
  | malformed
  deriving DecidableEq, Inhabited

namespace SettingsError

/-- The wording of an error. -/
def message : SettingsError → String
  | unreadable path reason => "failed to read config file " ++ path ++ ": " ++ reason
  | malformed => "invalid config"

/-- The reason that is given for a path at which there is no file. -/
def noSuchFile : String := "No such file or directory (os error 2)"

end SettingsError

/-- The settings in a file, given its text or the reason why it could not be read. -/
def Settings.ofFile (path : String) (contents : Except String String) :
    Except SettingsError Settings :=
  match contents with
  | .error reason => .error (.unreadable path reason)
  | .ok text => match read? text with
    | some settings => .ok settings
    | none => .error .malformed

end FlatRecord
