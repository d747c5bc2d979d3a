/-!
# Flat keys

The address of a value in a nested record is a `Key`: field names and list positions in turn, as in
`resources[0].url`. A key may also end in a control slot, which names a chain of validators of a
schema node or the bucket that collects what the schema does not describe.

Keys are ordered by length first and then by their segments, so whoever walks keys in order meets
every parent before its children. `Std.TransOrd Key` and `Std.LawfulEqOrd Key` say that the order is
total and that only equal keys compare as equal.
-/

namespace FlatRecord

/-- The slots of a schema node that hold chains outside the main phase. -/
inductive Control where
  /-- Runs before the main phase. -/
  | before
  /-- Runs after everything but the junk chain, inner nodes first. -/
  | after
  /-- Receives the fields that its node does not name. -/
  | extras
  /-- Receives what lies under no accepted node; at the root only. -/
  | junk
  deriving DecidableEq, Inhabited

namespace Control

/-- The name of the slot in records and messages. -/
def name : Control → String
  | before => "__before"
  | after => "__after"
  | extras => "__extras"
  | junk => "__junk"

/-- The place of the slot in the order of slots. -/
def rank : Control → Nat
  | before => 0
  | after => 1
  | extras => 2
  | junk => 3

/-- The slots are ordered by rank. -/
instance : Ord Control where
  compare a b := compare a.rank b.rank

/-- No two slots have the same rank. -/
theorem rank_injective {a b : Control} (h : a.rank = b.rank) : a = b := by
  cases a <;> cases b <;> first | rfl | cases h

/-- The order of slots is transitive, as that of their ranks is. -/
instance : Std.TransOrd Control where
  eq_swap {a b} := @Std.OrientedCmp.eq_swap Nat compare _ a.rank b.rank
  isLE_trans {a b c} := @Std.TransCmp.isLE_trans Nat compare _ a.rank b.rank c.rank

/-- Only equal slots compare as equal. -/
instance : Std.LawfulEqOrd Control where
  compare_self {a} := @Std.ReflCmp.compare_self Nat compare _ a.rank
  eq_of_compare {a b} h :=
    rank_injective (@Std.LawfulEqCmp.eq_of_compare Nat compare _ a.rank b.rank h)

end Control

/-- One step of a key. -/
inductive Segment where
  /-- A position in a list. -/
  | index (position : Nat)
  /-- A field of an object. -/
  | field (name : String)
  /-- A control slot of a schema node. -/
  | control (slot : Control)
  deriving DecidableEq, Inhabited

namespace Segment

/-- The name of the segment as a field of an object. -/
def name : Segment → String
  | index position => toString position
  | field name => name
  | control slot => slot.name

/-- The field name of a field segment. -/
def field? : Segment → Option String
  | field name => some name
  | _ => none

/-- The slot of a control segment. -/
def control? : Segment → Option Control
  | control slot => some slot
  | _ => none

/-- Whether the segment is a list position. -/
def isIndex : Segment → Bool
  | index _ => true
  | _ => false

/-- Positions come before fields and fields before control slots; segments of one kind are compared
by what they hold. -/
def order : Segment → Segment → Ordering
  | index i, index j => compare i j
  | index _, _ => .lt
  | field _, index _ => .gt
  | field a, field b => compare a b
  | field _, control _ => .lt
  | control a, control b => compare a b
  | control _, _ => .gt

/-- Segments are compared by `order`. -/
instance : Ord Segment := ⟨order⟩

/-- Exchanging two segments exchanges less and greater. -/
theorem order_swap (a b : Segment) : order a b = (order b a).swap := by
  cases a <;> cases b <;> first | rfl | skip
  · exact @Std.OrientedCmp.eq_swap Nat compare _ _ _
  · exact @Std.OrientedCmp.eq_swap String compare _ _ _
  · exact @Std.OrientedCmp.eq_swap Control compare _ _ _

/-- The order of segments is transitive. -/
theorem order_trans {a b c : Segment} (hab : (order a b).isLE) (hbc : (order b c).isLE) :
    (order a c).isLE := by
  cases a <;> cases b <;> cases c <;>
    first | rfl | exact absurd hab Bool.false_ne_true | exact absurd hbc Bool.false_ne_true | skip
  · exact @Std.TransCmp.isLE_trans Nat compare _ _ _ _ hab hbc
  · exact @Std.TransCmp.isLE_trans String compare _ _ _ _ hab hbc
  · exact @Std.TransCmp.isLE_trans Control compare _ _ _ _ hab hbc

/-- A segment compares as equal to itself. -/
theorem order_self (a : Segment) : order a a = .eq := by
  cases a
  · exact @Std.ReflCmp.compare_self Nat compare _ _
  · exact @Std.ReflCmp.compare_self String compare _ _
  · exact @Std.ReflCmp.compare_self Control compare _ _

/-- Segments that compare as equal are equal. -/
theorem eq_of_order_eq {a b : Segment} (h : order a b = .eq) : a = b := by
  cases a <;> cases b <;> first | exact Ordering.noConfusion h | skip
  · exact congrArg index (@Std.LawfulEqCmp.eq_of_compare Nat compare _ _ _ h)
  · exact congrArg field (@Std.LawfulEqCmp.eq_of_compare String compare _ _ _ h)
  · exact congrArg control (@Std.LawfulEqCmp.eq_of_compare Control compare _ _ _ h)

/-- The comparison of segments is an order. -/
instance : Std.TransOrd Segment where
  eq_swap {a b} := order_swap a b
  isLE_trans := order_trans

/-- Only equal segments compare as equal. -/
instance : Std.LawfulEqOrd Segment where
  compare_self {a} := order_self a
  eq_of_compare := eq_of_order_eq

end Segment

/-- The address of a value in a nested record. -/
structure Key where
  /-- The steps from the root. -/
  segments : List Segment := []
  deriving DecidableEq, Inhabited

namespace Key

/-- The address of the record itself. -/
def root : Key := ⟨[]⟩

/-- The number of segments. -/
def length (k : Key) : Nat := k.segments.length

/-- Whether the key is the root. -/
def isRoot (k : Key) : Bool := k.segments.isEmpty

/-- The key with one more segment. -/
def push (k : Key) (s : Segment) : Key := ⟨k.segments ++ [s]⟩

/-- The key of a field of the object at `k`. -/
def field (k : Key) (name : String) : Key := k.push (.field name)

/-- The key of an item of the list at `k`. -/
def index (k : Key) (position : Nat) : Key := k.push (.index position)

/-- The key of a control slot of the node at `k`. -/
def slot (k : Key) (control : Control) : Key := k.push (.control control)

/-- The key with the segments of another after its own. -/
def append (k l : Key) : Key := ⟨k.segments ++ l.segments⟩

/-- One key after another is written `k ++ l`. -/
instance : Append Key := ⟨append⟩

/-- The first `n` segments, or the whole key if it is shorter. -/
def take (k : Key) (n : Nat) : Key := ⟨k.segments.take n⟩

/-- The key without its last `n` segments, or the root if it is shorter. -/
def dropLast (k : Key) (n : Nat) : Key := k.take (k.length - n)

/-- The key without its last segment; the root is its own parent. -/
def parent (k : Key) : Key := k.dropLast 1

/-- The key without its last segment, for a key that has one. -/
def parent? (k : Key) : Option Key := if k.isRoot then none else some k.parent

/-- The first segment. -/
def first? (k : Key) : Option Segment := k.segments.head?

/-- The last segment. -/
def last? (k : Key) : Option Segment := k.segments.getLast?

/-- The slot in which the key ends. -/
def control? (k : Key) : Option Control := k.last?.bind Segment.control?

/-- Every other element of a list, from the first on. -/
def everyOther : List Segment → List Segment
  | s :: _ :: rest => s :: everyOther rest
  | l => l

/-- The key of the schema node: every other segment, which leaves out the list positions of a
well-formed key. -/
def shape (k : Key) : Key := ⟨everyOther k.segments⟩

/-- Whether `p` is a leading run of the segments of `k`. -/
def startsWith (k p : Key) : Bool := p.segments.isPrefixOf k.segments

/-- The text of the segments that follow a first one: a position in brackets, and a name after a
point. -/
def textAfter : List Segment → String
  | [] => ""
  | .index i :: rest => "[" ++ toString i ++ "]" ++ textAfter rest
  | s :: rest => "." ++ s.name ++ textAfter rest

/-- The text of a key, such as `resources[0].url`. -/
def text (k : Key) : String :=
  match k.segments with
  | [] => ""
  | .index i :: rest => "[" ++ toString i ++ "]" ++ textAfter rest
  | s :: rest => s.name ++ textAfter rest

/-! ## Order -/

/-- Shorter keys come first, and keys of one length are compared segment by segment. -/
def order (k l : Key) : Ordering :=
  (compare k.length l.length).then (compare k.segments l.segments)

/-- Keys are compared by `order`. -/
instance : Ord Key := ⟨order⟩

/-- The comparison of keys is an order, being lexicographic on their segments. -/
instance : Std.TransOrd Key :=
  inferInstanceAs (Std.TransCmp (compareLex (compareOn length) (compareOn segments)))

/-- A key compares as equal to itself. -/
theorem order_self (k : Key) : order k k = .eq := by
  simp [order, Std.ReflCmp.compare_self]

/-- Keys that compare as equal are equal. -/
theorem eq_of_order_eq {k l : Key} (h : order k l = .eq) : k = l := by
  have hsegments : k.segments = l.segments :=
    Std.LawfulEqCmp.eq_of_compare (Ordering.then_eq_eq.1 h).2
  exact congrArg Key.mk hsegments

/-- Only equal keys compare as equal. -/
instance : Std.LawfulEqOrd Key where
  compare_self {k} := order_self k
  eq_of_compare := eq_of_order_eq

end Key

end FlatRecord
