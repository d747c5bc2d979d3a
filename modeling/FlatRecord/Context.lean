import FlatRecord.Json
import FlatRecord.Settings
import FlatRecord.Store.Session

/-!
# The context of a call

What a caller hands to validation, rendering and saving besides the record itself: the session,
named values for validators to read and write, and flags. Rendering raises the watermark in it, and
validators may leave notes.
-/

namespace FlatRecord

/-- The context of a call. -/
structure Context where
  /-- Where rows are looked up and staged, if anywhere. -/
  session : Option Session := none
  /-- The top-level fields of the schema in use. -/
  schemaKeys : List String := []
  /-- Named values. -/
  values : Record := ∅
  /-- Whether changed rows are saved as pending. -/
  pending : Bool := false
  /-- Whether callers may leave out what they do not change. -/
  allowPartialUpdate : Bool := false
  /-- Whether lists leave out rows that are neither active nor pending. -/
  active : Bool := true
  /-- Whether lists show the capacity of a row in its parent. -/
  withCapacity : Bool := false
  /-- Whether empty lists at the top of a record are put back after validation. -/
  fixPartialUpdates : Bool := true
  /-- The latest time of revision seen in a rendered row. -/
  watermark : Option Moment := none
  /-- What validators have noted, the first note first. -/
  notes : List String := []

namespace Context

/-- Takes over the settings of the engine. -/
def withSettings (c : Context) (s : Settings) : Context :=
  { c with fixPartialUpdates := s.fixPartialUpdates }

/-- The session, which a caller has to have given. -/
def requireSession (c : Context) : Except StoreError Session :=
  match c.session with
  | some session => .ok session
  | none => .error .noSession

/-- Raises the watermark to a later time. -/
def raiseWatermark (c : Context) (time : Moment) : Context :=
  { c with watermark := some (match c.watermark with
    | some current => current.later time
    | none => time) }

/-- Stores a named value. -/
def setValue (c : Context) (name : String) (value : Json) : Context :=
  { c with values := c.values.insert name value }

/-- Leaves a note. -/
def note (c : Context) (text : String) : Context := { c with notes := c.notes ++ [text] }

end Context

end FlatRecord
