import FlatRecord.Record.Flatten
import FlatRecord.Schema.Template

/-!
# Expansions

The schema of one record: its chains under the concrete keys of the record. An object of the record
is *accepted* when the schema has a node for it and the object it lies in is accepted; the record
itself always is. `complete` fills the record up to the expanded schema: fields that are not there
become missing, fields that an accepted object should not have go into its extras slot, and all else
goes into the junk slot under its rendered key.
-/

namespace FlatRecord

/-- Accepts the object in which an entry lies if the schema has a node for it and the object around
it is accepted already. -/
def acceptParent (t : Template) (accepted : SortedSet Key) (key : Key) : SortedSet Key :=
  if t.hasNode key.parent.shape && accepted.contains (key.dropLast 3) then
    accepted.insert key.parent ()
  else
    accepted

/-- The keys of the accepted objects among those in which the given keys lie. Going through the keys
in order meets outer objects before inner ones. -/
def acceptedNodes (t : Template) (keys : List Key) : SortedSet Key :=
  keys.foldl (acceptParent t) (SortedMap.insert ∅ .root ())

namespace Schema

/-- The chains of the leaf fields of the node at a key. -/
def leafEntries (s : Schema) (key : Key) : List (Key × Chain) :=
  s.fields.filterMap fun f => f.2.leaf?.map fun chain => (key.field f.1, chain)

/-- The chains directly under an accepted object. -/
def chainsAt (s : Schema) (node : Key) : List (Key × Chain) :=
  match s.descend? node with
  | some n => n.leafEntries node ++ n.slotEntries node
  | none => []

/-- The chains of a record with the given accepted objects. -/
def fullChains (s : Schema) (accepted : SortedSet Key) : SortedMap Key Chain :=
  .ofList (accepted.keys.flatMap s.chainsAt ++ s.junkEntries)

end Schema

/-- A schema under the concrete keys of one record. -/
structure Expansion where
  /-- The template of the schema. -/
  template : Template
  /-- The accepted objects. -/
  accepted : SortedSet Key
  /-- The chains by key. -/
  full : SortedMap Key Chain

namespace Expansion

/-- The expansion of a schema for a record. -/
def of (s : Schema) (flat : FlatValues) : Expansion :=
  let template := s.template
  let accepted := acceptedNodes template flat.keys
  ⟨template, accepted, s.fullChains accepted⟩

/-- Where an entry of a record belongs. -/
inductive Route where
  /-- The schema has a chain for it. -/
  | declared
  /-- A list of objects should be there. -/
  | misplaced
  /-- It is under an accepted object, which should not have it. -/
  | extra (slot : Key) (name : String)
  /-- It is under no accepted object. -/
  | junk (text : String)
  deriving DecidableEq

/-- Where an entry belongs. -/
def route (e : Expansion) (key : Key) (value : Json) : Route :=
  if e.full.contains key then .declared
  else if e.template.leadsOn key.shape && !value.isEmptyList then .misplaced
  else match key.last? with
    | some last =>
      if e.accepted.contains key.parent then .extra (key.parent.slot .extras) last.name
      else .junk key.text
    | none => .junk key.text

/-- The entries of a record sorted by where they belong. -/
structure Routed where
  /-- The entries with a chain. -/
  declared : FlatData := ∅
  /-- The contents of the extras slots. -/
  extras : SortedMap Key Record := ∅
  /-- The contents of the junk slot. -/
  junk : Record := ∅

/-- Puts one entry where it belongs. -/
def routeEntry (e : Expansion) (r : Routed) (key : Key) (value : Json) :
    Except StructureError Routed :=
  match e.route key value with
  | .declared => .ok { r with declared := r.declared.insert key (.value value) }
  | .misplaced => .error (.misplaced key value.typeName)
  | .extra slot name =>
    .ok { r with extras := r.extras.alter slot fun old => some ((old.getD ∅).insert name value) }
  | .junk text => .ok { r with junk := r.junk.insert text value }

/-- Puts all entries of a record where they belong; the first misplaced one is reported. -/
def routeAll (e : Expansion) (flat : FlatValues) : Except StructureError Routed :=
  flat.entries.foldlM (fun r entry => e.routeEntry r entry.1 entry.2) {}

/-- The keys of the fields that have a chain, control slots left out. -/
def leafKeys (e : Expansion) : List Key := e.full.keys.filter fun k => k.control?.isNone

/-- A record filled up to the expanded schema. -/
def complete (e : Expansion) (flat : FlatValues) : Except StructureError FlatData :=
  (e.routeAll flat).map fun r =>
    let withJunk :=
      if r.junk.isEmpty then r.declared
      else r.declared.insert (Key.root.slot .junk) (.value (.ofRecord r.junk))
    let withMissing := e.leafKeys.foldl (fun data key => data.insertIfNew key .missing) withJunk
    withMissing.insertMany (r.extras.entries.map fun b => (b.1, .value (.ofRecord b.2)))

end Expansion

end FlatRecord
