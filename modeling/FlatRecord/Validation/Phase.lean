import FlatRecord.Schema.Expansion

/-!
# Phases

A run over a record has five phases: the chains before, the chains of the fields, those of the
extras slots, the chains after, and the junk chain at the root. Within a phase the keys ascend, so
outer objects come first; the chains after run in descending order, so inner objects come first.
-/

namespace FlatRecord

/-- A part of a run. -/
inductive Phase where
  /-- The chains before the main phase. -/
  | before
  /-- The chains of the fields. -/
  | main
  /-- The chains of the extras slots. -/
  | extras
  /-- The chains after the main phase. -/
  | after
  /-- The junk chain. -/
  | junk
  deriving DecidableEq, Inhabited

namespace Phase

/-- The phases in the order in which they run. -/
def all : List Phase := [before, main, extras, after, junk]

/-- The phase in which a key has its turn. -/
def of (key : Key) : Phase :=
  match key.control? with
  | none => main
  | some .before => before
  | some .extras => extras
  | some .after => after
  | some .junk => junk

/-- The name of the phase. -/
def name : Phase → String
  | before => "before"
  | main => "main"
  | extras => "extras"
  | after => "after"
  | junk => "junk"

/-- Whether a key has its turn in a phase; of the junk slots only the one at the root has. -/
def includes (p : Phase) (key : Key) : Bool := of key = p && (p ≠ junk || key.length = 1)

/-- The chains of a phase in the order in which they run. -/
def chains (p : Phase) (full : SortedMap Key Chain) : List (Key × Chain) :=
  let turns := full.entries.filter fun e => p.includes e.1
  if p = after then turns.reverse else turns

end Phase

/-- All chains in the order in which they run. -/
def schedule (full : SortedMap Key Chain) : List (Key × Chain) :=
  Phase.all.flatMap fun p => p.chains full

end FlatRecord
