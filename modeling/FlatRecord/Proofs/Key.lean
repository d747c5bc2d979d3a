import FlatRecord.Key

/-!
# Keys and their parents

A key with one more segment gives back the key as its parent and the segment as its last one, and
is determined by the two (`push_inj`). So the keys of fields and of slots differ, and each of them
determines the node to which it belongs. A key is never longer than one that comes after it in key
order.

The keys of a record lead through objects and lists in turn. `Alternates` says so of their segments,
and `Key.IsAddress` of a key whose fields cannot be taken for slots.
-/

namespace FlatRecord.Key

/-- A further segment makes a key longer by one. -/
@[simp] theorem length_push (k : Key) (s : Segment) : (k.push s).length = k.length + 1 := by
  unfold length push
  rw [List.length_append]
  rfl

/-- Without its last segment a key is what it was before that was appended. -/
@[simp] theorem parent_push (k : Key) (s : Segment) : (k.push s).parent = k := by
  rw [parent, dropLast, length_push, Nat.add_sub_cancel, take, push, length, List.take_left']
  rfl

/-- The appended segment is the last one. -/
@[simp] theorem last?_push (k : Key) (s : Segment) : (k.push s).last? = some s := by
  unfold last? push
  rw [List.getLast?_concat]

/-- A key with one more segment is determined by the key and the segment. -/
@[simp] theorem push_inj {k l : Key} {s t : Segment} : k.push s = l.push t ↔ k = l ∧ s = t := by
  refine ⟨fun h => ⟨?_, ?_⟩, fun ⟨hk, hs⟩ => by rw [hk, hs]⟩
  · rw [← parent_push k s, h, parent_push]
  · have hl := last?_push k s
    rw [h, last?_push] at hl
    exact (Option.some.inj hl).symm

/-- A key below the root has a last segment. -/
theorem eq_root_or_push (k : Key) : k = root ∨ ∃ (l : Key) (s : Segment), k = l.push s := by
  obtain ⟨segments⟩ := k
  rcases List.eq_nil_or_concat segments with rfl | ⟨before, s, rfl⟩
  · exact .inl rfl
  · rw [List.concat_eq_append]
    exact .inr ⟨⟨before⟩, s, rfl⟩

/-- A key with a further segment is not the root. -/
theorem root_ne_push (k : Key) (s : Segment) : root ≠ k.push s := by
  intro h
  have hlength := congrArg length h
  rw [length_push] at hlength
  cases hlength

/-- A key ends in a slot when its last segment is that slot. -/
@[simp] theorem control?_push (k : Key) (s : Segment) : (k.push s).control? = s.control? := by
  unfold control?
  rw [last?_push, Option.bind_some]

/-! ## Fields and slots -/

section Members

variable {k l : Key} {name name' : String} {c c' : Control}

/-- The parent of a field is the key of its object. -/
@[simp] theorem parent_field : (k.field name).parent = k := parent_push k _

/-- The parent of a slot is the key of its object. -/
@[simp] theorem parent_slot : (k.slot c).parent = k := parent_push k _

/-- The last segment of a field is its name. -/
@[simp] theorem last?_field : (k.field name).last? = some (.field name) := last?_push k _

/-- The key of a field ends in no slot. -/
@[simp] theorem control?_field : (k.field name).control? = none := control?_push k _

/-- The key of a slot ends in that slot. -/
@[simp] theorem control?_slot : (k.slot c).control? = some c := control?_push k _

/-- Equal fields have equal objects and names. -/
theorem field_inj : k.field name = l.field name' ↔ k = l ∧ name = name' := by
  unfold field
  rw [push_inj, Segment.field.injEq]

/-- Equal slots have equal objects and kinds. -/
theorem slot_inj : k.slot c = l.slot c' ↔ k = l ∧ c = c' := by
  unfold slot
  rw [push_inj, Segment.control.injEq]

/-- A field is no slot. -/
theorem field_ne_slot : k.field name ≠ l.slot c := by
  intro h
  have hcontrol : (k.field name).control? = (l.slot c).control? := congrArg control? h
  rw [control?_field, control?_slot] at hcontrol
  cases hcontrol

end Members

/-! ## Order -/

/-- A key is not longer than one after it. -/
theorem length_le_of_lt {k l : Key} (h : compare k l = .lt) : k.length ≤ l.length := by
  have h : (compare k.length l.length).then (compare k.segments l.segments) = .lt := h
  rw [Ordering.then_eq_lt, Nat.compare_eq_lt, Nat.compare_eq_eq] at h
  omega

/-- A shorter key comes before a longer one. -/
theorem lt_of_length_lt {k l : Key} (h : k.length < l.length) : compare k l = .lt := by
  have hlength : compare k.length l.length = .lt := Nat.compare_eq_lt.2 h
  show (compare k.length l.length).then (compare k.segments l.segments) = .lt
  rw [hlength, Ordering.lt_then]

/-- A key is longer than any other key that is a leading run of it. -/
theorem length_lt_of_isPrefix {p k : Key} (h : p.segments <+: k.segments) (hne : p ≠ k) :
    p.length < k.length := by
  refine Nat.lt_of_le_of_ne h.length_le fun hlength => hne ?_
  -- A leading run of all segments is the key itself.
  exact congrArg Key.mk (h.eq_of_length hlength)

/-- In lists whose first parts have one length these are compared first. -/
theorem compare_append_append {l m : List Segment} (h : l.length = m.length) (l' m' : List Segment) :
    compare (l ++ l') (m ++ m') = (compare l m).then (compare l' m') := by
  rw [List.compare_eq_compareLex]
  induction l generalizing m with
  | nil =>
    rw [List.eq_nil_of_length_eq_zero h.symm, List.nil_append, List.nil_append, List.compareLex_nil_nil,
      Ordering.eq_then]
  | cons s l ih =>
    -- The lists have one length, so the other one has a first segment too.
    obtain ⟨t, m, rfl⟩ := List.exists_cons_of_length_eq_add_one h.symm
    rw [List.cons_append, List.cons_append, List.compareLex_cons_cons, List.compareLex_cons_cons,
      ih (Nat.succ.inj h), Ordering.then_assoc]

/-- The last segments of keys of one length are compared when all others are the same. -/
theorem compare_push_push {k l : Key} (h : k.length = l.length) (s t : Segment) :
    compare (k.push s) (l.push t) = (compare k l).then (compare s t) := by
  have hlength : compare k.length l.length = .eq := Nat.compare_eq_eq.2 h
  have hpushed : compare (k.push s).length (l.push t).length = .eq := by
    rw [length_push, length_push, h]
    exact Std.ReflCmp.compare_self
  -- Lists of one segment are compared by it.
  have hlast : compare [s] [t] = compare s t := by
    rw [List.compare_eq_compareLex, List.compareLex_cons_cons, List.compareLex_nil_nil, Ordering.then_eq]
  show (compare (k.push s).length (l.push t).length).then
      (compare (k.segments ++ [s]) (l.segments ++ [t])) =
    ((compare k.length l.length).then (compare k.segments l.segments)).then (compare s t)
  rw [hpushed, hlength, compare_append_append h, hlast, Ordering.eq_then, Ordering.eq_then]

/-- Keys that differ in their last segments only are in the order of these. -/
theorem compare_push (k : Key) (a b : Segment) : compare (k.push a) (k.push b) = compare a b := by
  have hself : compare k k = .eq := Std.ReflCmp.compare_self
  rw [compare_push_push rfl, hself, Ordering.eq_then]

/-- The keys of fields of one object are in the order of the names. -/
theorem compare_field_eq_lt_iff {k : Key} {a b : String} :
    compare (k.field a) (k.field b) = .lt ↔ a < b := by
  unfold field
  rw [compare_push]
  exact compareOfLessAndEq_eq_lt

end FlatRecord.Key

namespace FlatRecord

/-! ## Addresses -/

/-- What a part of a key leads to. -/
inductive Place where
  /-- An object, in which fields and slots have names. -/
  | object
  /-- The value of a field: if it leads on, it is a list with positions. -/
  | list

/-- The place to which a segment leads. -/
def Place.next : Place → Place
  | object => list
  | list => object

/-- A segment fits a place: a position in a list, or in an object a slot or a field with a name of the
given kind. -/
def Segment.FitsIn (named : String → Prop) : Place → Segment → Prop
  | .object, .field name => named name
  | .object, .control _ => True
  | .list, .index _ => True
  | .object, .index _ => False
  | .list, .field _ => False
  | .list, .control _ => False

/-- The segments lead through objects and lists in turn, from the given place on, and a slot is the last
of them. -/
def Alternates (named : String → Prop) : Place → List Segment → Prop
  | _, [] => True
  | place, s :: rest =>
    s.FitsIn named place ∧ (s.control?.isSome = true → rest = []) ∧ Alternates named place.next rest

/-- The name is none of those of the slots. -/
def Control.Unused (name : String) : Prop := ∀ slot : Control, name ≠ slot.name

/-- A key below the root that leads through objects and lists in turn. It may end in a slot, but no
field has the name of a slot. -/
def Key.IsAddress (k : Key) : Prop :=
  k.segments ≠ [] ∧ Alternates Control.Unused .object k.segments

/-- Whether a name is the name of a slot can be computed. -/
instance (name : String) : Decidable (Control.Unused name) :=
  decidable_of_iff (∀ slot ∈ [Control.before, .after, .extras, .junk], name ≠ slot.name)
    ⟨fun h slot => h slot (by cases slot <;> simp), fun h slot _ => h slot⟩

/-- Whether a segment fits a place can be computed. -/
instance (named : String → Prop) [DecidablePred named] :
    (place : Place) → (s : Segment) → Decidable (s.FitsIn named place)
  | .object, .field name => inferInstanceAs (Decidable (named name))
  | .object, .control _ | .list, .index _ => isTrue trivial
  | .object, .index _ | .list, .field _ | .list, .control _ => isFalse id

/-- Decides whether segments lead through objects and lists in turn. -/
def decideAlternates (named : String → Prop) [DecidablePred named] :
    (place : Place) → (segments : List Segment) → Decidable (Alternates named place segments)
  | _, [] => isTrue trivial
  | place, s :: rest =>
    have := decideAlternates named place.next rest
    inferInstanceAs (Decidable
      (s.FitsIn named place ∧ (s.control?.isSome = true → rest = []) ∧ Alternates named place.next rest))

/-- Whether segments alternate can be computed. -/
instance (named : String → Prop) [DecidablePred named] (place : Place) (segments : List Segment) :
    Decidable (Alternates named place segments) :=
  decideAlternates named place segments

/-- Whether a key is an address can be computed. -/
instance (k : Key) : Decidable k.IsAddress :=
  inferInstanceAs (Decidable (k.segments ≠ [] ∧ Alternates Control.Unused .object k.segments))

/-- What fits in a list is a position. -/
theorem Segment.FitsIn.exists_index {named : String → Prop} {s : Segment}
    (h : s.FitsIn named .list) : ∃ i, s = .index i := by
  cases s with
  | index i => exact ⟨i, rfl⟩
  | _ => exact h.elim

/-- What fits in an object is no position. -/
theorem Segment.FitsIn.isIndex_eq_false {named : String → Prop} {s : Segment}
    (h : s.FitsIn named .object) : s.isIndex = false := by
  cases s with
  | index i => exact h.elim
  | _ => rfl

/-- Different slots have different names. -/
theorem Control.name_injective {a b : Control} (h : a.name = b.name) : a = b := by
  cases a <;> cases b <;> first | rfl | exact absurd h (by decide)

/-- In an object whose fields do not have the names of slots a name belongs to one segment. -/
theorem Segment.eq_of_name_eq {s t : Segment} (hs : s.FitsIn Control.Unused .object)
    (ht : t.FitsIn Control.Unused .object) (h : s.name = t.name) : s = t := by
  cases s with
  | index i => exact hs.elim
  | field a => cases t with
    | index j => exact ht.elim
    | field b => exact congrArg field h
    | control c => exact absurd h (hs c)
  | control c => cases t with
    | index j => exact ht.elim
    | field b => exact absurd h.symm (ht c)
    | control d => exact congrArg control (Control.name_injective h)

end FlatRecord
