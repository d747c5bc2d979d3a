import FlatRecord.Proofs.Key
import FlatRecord.Proofs.SortedMap
import FlatRecord.Record.Flatten

/-!
# The objects of a record

An `ItemPath` leads from a record into its lists, and `Json.Within` says which object it leads to.
The lists that flattening goes into are the expanded ones; `Json.EveryItem` states a property of all
items of the expanded lists that are reached through expanded lists.

Proofs about functions that go into expanded lists are inductions over the fields of an object and
the items of a list at once. `Json.ExpandedCases` names the cases of such an induction.
-/

namespace FlatRecord

/-! ## Paths to objects -/

/-- The way from a record to an object in it: each list gone into with the position in it, outermost
list first. -/
abbrev ItemPath := List (String × Nat)

namespace ItemPath

/-- The segments of the key of the object. -/
def segments : ItemPath → List Segment
  | [] => []
  | (name, position) :: rest => .field name :: .index position :: segments rest

/-- The key of the object. -/
def key (p : ItemPath) : Key := ⟨segments p⟩

/-- The names of the lists gone into. -/
def names (p : ItemPath) : List String := p.map (·.1)

/-- The path to the record itself has no segments. -/
@[simp] theorem segments_nil : segments [] = [] := rfl

/-- A step of a path is the name of a list and a position in it. -/
@[simp] theorem segments_cons (name : String) (position : Nat) (p : ItemPath) :
    segments ((name, position) :: p) = .field name :: .index position :: segments p := rfl

/-- The segments of two paths in a row are those of the one and those of the other. -/
theorem segments_append (p q : ItemPath) : segments (p ++ q) = segments p ++ segments q := by
  induction p with
  | nil => rfl
  | cons step p ih => simp [segments, ih]

/-- A path has two segments for each list gone into. -/
theorem length_segments (p : ItemPath) : (segments p).length = 2 * p.length := by
  induction p with
  | nil => rfl
  | cons step p ih =>
    simp only [segments, List.length_cons, ih]
    omega

/-- A path is determined by its segments. -/
theorem segments_injective {p q : ItemPath} (h : segments p = segments q) : p = q := by
  induction p generalizing q with
  | nil =>
    cases q with
    | nil => rfl
    | cons step q => cases h
  | cons step p ih =>
    cases q with
    | nil => cases h
    | cons step' q =>
      simp only [segments, List.cons.injEq, Segment.field.injEq, Segment.index.injEq] at h
      obtain ⟨hname, hposition, hrest⟩ := h
      rw [ih hrest, Prod.ext hname hposition]

/-- The key of a field of an object is determined by the path of the object and the name. -/
theorem key_field_inj {p q : ItemPath} {name name' : String} :
    p.key.field name = q.key.field name' ↔ p = q ∧ name = name' := by
  rw [Key.field_inj]
  refine and_congr_left fun _ => ⟨fun h => segments_injective (congrArg Key.segments h), ?_⟩
  rintro rfl
  rfl

/-- Of the segments of a path and one more, every other one is the name of a list or that last
one. -/
theorem everyOther_segments (p : ItemPath) (s : Segment) :
    Key.everyOther (segments p ++ [s]) = p.names.map .field ++ [s] := by
  induction p with
  | nil => rfl
  | cons step p ih => simp only [segments, names, List.cons_append, Key.everyOther, ih, List.map_cons]

/-- The shape of the key of an object has the names of the lists gone into. -/
theorem shape_key (p : ItemPath) : p.key.shape = ⟨p.names.map .field⟩ := by
  unfold Key.shape key
  rw [Key.mk.injEq]
  induction p with
  | nil => rfl
  | cons step p ih => simp only [segments, names, Key.everyOther, ih, List.map_cons]

/-- The last segment of a key that lies directly in an object belongs to its shape. -/
theorem shape_key_push (p : ItemPath) (last : Segment) :
    (p.key.push last).shape = p.key.shape.push last := by
  have hshape : (p.key.push last).shape = ⟨Key.everyOther (segments p ++ [last])⟩ := rfl
  rw [hshape, everyOther_segments, shape_key]
  rfl

end ItemPath

namespace Json

/-! ## Objects in a record -/

/-- Whether a value is an expanded list. -/
def expands : Json → Bool
  | arr items => isExpanded items
  | _ => false

/-- Going into the lists that a path names, each of which passes the test `into`, leads from the
object with the first fields to the object with the last ones. -/
inductive Within (into : List Json → Bool) :
    List (String × Json) → ItemPath → List (String × Json) → Prop
  /-- The empty path stays where it is. -/
  | here (fields : List (String × Json)) : Within into fields [] fields
  /-- One step goes to an object in a list. -/
  | item {fields name items position inner path last} (hlist : (name, arr items) ∈ fields)
      (hinto : into items = true) (hitem : items[position]? = some (obj inner))
      (hrest : Within into inner path last) : Within into fields ((name, position) :: path) last

/-! ## Objects with their names in order -/

mutual

/-- Decides whether the objects in a value list their names in order. -/
def decideOrdered : (v : Json) → Decidable v.Ordered
  | arr items => decideOrderedItems items
  | obj fields => match inferInstanceAs (Decidable (Ascending.Sorted fields)),
      decideOrderedFields fields with
    | isTrue hsorted, isTrue hfields => isTrue ⟨hsorted, hfields⟩
    | isFalse hsorted, _ => isFalse fun h => hsorted h.1
    | _, isFalse hfields => isFalse fun h => hfields h.2
  | null => isTrue trivial
  | bool _ => isTrue trivial
  | int _ => isTrue trivial
  | float _ => isTrue trivial
  | str _ => isTrue trivial
termination_by structural v => v

/-- Decides whether the items of a list are ordered. -/
def decideOrderedItems : (items : List Json) → Decidable (OrderedItems items)
  | [] => isTrue trivial
  | v :: rest => match decideOrdered v, decideOrderedItems rest with
    | isTrue hv, isTrue hrest => isTrue ⟨hv, hrest⟩
    | isFalse hv, _ => isFalse fun h => hv h.1
    | _, isFalse hrest => isFalse fun h => hrest h.2
termination_by structural l => l

/-- Decides whether the values of an object are ordered. -/
def decideOrderedFields : (fields : List (String × Json)) → Decidable (OrderedFields fields)
  | [] => isTrue trivial
  | (_, v) :: rest => match decideOrdered v, decideOrderedFields rest with
    | isTrue hv, isTrue hrest => isTrue ⟨hv, hrest⟩
    | isFalse hv, _ => isFalse fun h => hv h.1
    | _, isFalse hrest => isFalse fun h => hrest h.2
termination_by structural l => l

end

/-- Whether a value is ordered can be computed. -/
instance (v : Json) : Decidable v.Ordered := decideOrdered v

/-- The fields of an object are ordered if their values are. -/
theorem orderedFields_iff {fields : List (String × Json)} :
    OrderedFields fields ↔ ∀ field ∈ fields, field.2.Ordered := by
  induction fields with
  | nil => simp [OrderedFields]
  | cons field rest ih => simp [OrderedFields, ih]

/-- The items of a list are ordered if each of them is. -/
theorem orderedItems_iff {items : List Json} : OrderedItems items ↔ ∀ v ∈ items, v.Ordered := by
  induction items with
  | nil => simp [OrderedItems]
  | cons v rest ih => simp [OrderedItems, ih]

/-- Without its first field an ordered object is ordered. -/
theorem Ordered.of_cons {field : String × Json} {rest : List (String × Json)}
    (h : (obj (field :: rest)).Ordered) : (obj rest).Ordered :=
  ⟨List.Pairwise.of_cons h.1, h.2.2⟩

/-- The items of a list in the first field of an ordered object are ordered. -/
theorem Ordered.items_of_cons {name : String} {items : List Json} {rest : List (String × Json)}
    (h : (obj ((name, arr items) :: rest)).Ordered) : ∀ v ∈ items, v.Ordered :=
  orderedItems_iff.1 h.2.1

/-- The objects in a list inside an ordered object are ordered. -/
theorem Ordered.item {fields inner : List (String × Json)} {name : String} {items : List Json}
    {position : Nat} (h : (obj fields).Ordered) (hlist : (name, arr items) ∈ fields)
    (hitem : items[position]? = some (obj inner)) : (obj inner).Ordered := by
  have hitems : (arr items).Ordered := orderedFields_iff.1 h.2 _ hlist
  exact orderedItems_iff.1 hitems _ (List.mem_of_getElem? hitem)

/-- Going into the lists of an ordered object leads to ordered objects. -/
theorem Within.ordered {into : List Json → Bool} {fields last : List (String × Json)}
    {path : ItemPath} (hw : Within into fields path last) (h : (obj fields).Ordered) :
    (obj last).Ordered := by
  induction hw with
  | here => exact h
  | item hlist _ hitem _ ih => exact ih (h.item hlist hitem)

/-- One path goes on where another one ends. -/
theorem Within.append {into : List Json → Bool} {fields inner last : List (String × Json)}
    {path path' : ItemPath} (hw : Within into fields path inner) (hw' : Within into inner path' last) :
    Within into fields (path ++ path') last := by
  induction hw with
  | here => exact hw'
  | item hlist hinto hitem _ ih => exact .item hlist hinto hitem (ih hw')

/-- On the way to an object lie other objects. -/
theorem Within.exists_take {into : List Json → Bool} {fields last : List (String × Json)}
    {path : ItemPath} (hw : Within into fields path last) (j : Nat) :
    ∃ inner, Within into fields (path.take j) inner := by
  induction hw generalizing j with
  | here fields => exact ⟨fields, by rw [List.take_nil]; exact .here fields⟩
  | item hlist hinto hitem _ ih =>
    cases j with
    | zero => exact ⟨_, .here _⟩
    | succ j =>
      obtain ⟨inner, hinner⟩ := ih j
      exact ⟨inner, .item hlist hinto hitem hinner⟩

/-- In an ordered object a path leads to one object only. -/
theorem Within.eq_of_ordered {into into' : List Json → Bool} {fields last last' : List (String × Json)}
    {path : ItemPath} (hw : Within into fields path last) (h : (obj fields).Ordered)
    (hw' : Within into' fields path last') : last = last' := by
  induction hw with
  | here =>
    cases hw'
    rfl
  | item hlist _ hitem _ ih =>
    cases hw' with
    | item hlist' _ hitem' hrest' =>
      -- The names are different, so both ways go into the same list, and so to the same item.
      cases Ascending.eq_of_mem_of_mem h.1 hlist hlist'
      cases hitem.symm.trans hitem'
      exact ih (h.item hlist hitem) hrest'

/-! ## Induction over expanded lists -/

/-- The cases of an induction over the fields of an object and the items of a list: `P` is shown of
the fields and `Q` of the items, and the induction goes into expanded lists. -/
structure ExpandedCases (P : List (String × Json) → Prop) (Q : List Json → Prop) : Prop where
  /-- No fields. -/
  nil : P []
  /-- A field with an expanded list. -/
  list : ∀ name items rest, isExpanded items = true → Q items → P rest →
    P ((name, arr items) :: rest)
  /-- A field with any other value. -/
  value : ∀ name v rest, v.expands = false → P rest → P ((name, v) :: rest)
  /-- No items. -/
  empty : Q []
  /-- An object among the items. -/
  item : ∀ fields rest, P fields → Q rest → Q (obj fields :: rest)
  /-- Any other value among the items. -/
  other : ∀ v rest, v.isObject = false → Q rest → Q (v :: rest)

mutual

/-- What the cases show of all fields. -/
theorem ExpandedCases.fields {P : List (String × Json) → Prop} {Q : List Json → Prop}
    (c : ExpandedCases P Q) : ∀ fields, P fields
  | [] => c.nil
  | (name, arr items) :: rest =>
    if h : isExpanded items = true then c.list name items rest h (c.items items) (c.fields rest)
    else c.value name (arr items) rest (Bool.eq_false_iff.2 h) (c.fields rest)
  | (name, null) :: rest => c.value name _ rest rfl (c.fields rest)
  | (name, bool _) :: rest => c.value name _ rest rfl (c.fields rest)
  | (name, int _) :: rest => c.value name _ rest rfl (c.fields rest)
  | (name, float _) :: rest => c.value name _ rest rfl (c.fields rest)
  | (name, str _) :: rest => c.value name _ rest rfl (c.fields rest)
  | (name, obj _) :: rest => c.value name _ rest rfl (c.fields rest)

/-- What the cases show of all items. -/
theorem ExpandedCases.items {P : List (String × Json) → Prop} {Q : List Json → Prop}
    (c : ExpandedCases P Q) : ∀ items, Q items
  | [] => c.empty
  | obj fields :: rest => c.item fields rest (c.fields fields) (c.items rest)
  | arr _ :: rest => c.other _ rest rfl (c.items rest)
  | null :: rest => c.other _ rest rfl (c.items rest)
  | bool _ :: rest => c.other _ rest rfl (c.items rest)
  | int _ :: rest => c.other _ rest rfl (c.items rest)
  | float _ :: rest => c.other _ rest rfl (c.items rest)
  | str _ :: rest => c.other _ rest rfl (c.items rest)

end

/-! ## Objects in a list -/

/-- A value that is an object has fields. -/
theorem exists_eq_obj {v : Json} (h : v.isObject = true) : ∃ fields, v = obj fields := by
  cases v with
  | obj fields => exact ⟨fields, rfl⟩
  | _ => cases h

section Positions

variable {P : Nat → List (String × Json) → Prop} {rest : List Json}

/-- The objects in a list that starts with an object are this one, at position zero, and those of the
rest, each one position further on. -/
theorem exists_item_obj_cons {fields : List (String × Json)} :
    (∃ i inner, (obj fields :: rest)[i]? = some (obj inner) ∧ P i inner) ↔
      P 0 fields ∨ ∃ i inner, rest[i]? = some (obj inner) ∧ P (i + 1) inner := by
  constructor
  · -- Position 0 is that of the first object, any other one counts one less in the rest.
    rintro ⟨i, inner, hitem, h⟩
    cases i with
    | zero =>
      cases hitem
      exact .inl h
    | succ i => exact .inr ⟨i, inner, hitem, h⟩
  · rintro (h | ⟨i, inner, hitem, h⟩)
    · exact ⟨0, fields, rfl, h⟩
    · exact ⟨i + 1, inner, hitem, h⟩

/-- The objects in a list that starts with another value are those of the rest. -/
theorem exists_item_other_cons {v : Json} (hv : v.isObject = false) :
    (∃ i inner, (v :: rest)[i]? = some (obj inner) ∧ P i inner) ↔
      ∃ i inner, rest[i]? = some (obj inner) ∧ P (i + 1) inner := by
  constructor
  · -- The first value is no object.
    rintro ⟨i, inner, hitem, h⟩
    cases i with
    | zero =>
      cases hitem
      cases hv
    | succ i => exact ⟨i, inner, hitem, h⟩
  · rintro ⟨i, inner, hitem, h⟩
    exact ⟨i + 1, inner, hitem, h⟩

end Positions

/-! ## Properties of all items -/

/-- A list of objects that is not empty is expanded. -/
theorem isExpanded_of_forall_isObject {items : List Json} (hne : items ≠ [])
    (h : ∀ v ∈ items, v.isObject = true) : isExpanded items = true := by
  cases items with
  | nil => exact absurd rfl hne
  | cons v rest =>
    obtain ⟨fields, rfl⟩ := exists_eq_obj (h v List.mem_cons_self)
    rfl

/-- What holds of all objects in a list holds of the first and of those behind it. -/
theorem forall_obj_mem_cons {P : List (String × Json) → Prop} {fields : List (String × Json)}
    {rest : List Json} : (∀ inner, obj inner ∈ obj fields :: rest → P inner) ↔
      P fields ∧ ∀ inner, obj inner ∈ rest → P inner := by
  simp [or_imp, forall_and]

/-- Every item of every expanded list that is reached through expanded lists has the property. -/
def EveryItem (q : Json → Prop) (fields : List (String × Json)) : Prop :=
  ∀ path inner list items, Within isExpanded fields path inner → (list, arr items) ∈ inner →
    isExpanded items = true → ∀ v ∈ items, q v

/-- A property of all items may be weakened. -/
theorem EveryItem.imp {q q' : Json → Prop} {fields : List (String × Json)} (h : EveryItem q fields)
    (himp : ∀ v, q v → q' v) : EveryItem q' fields :=
  fun path inner list items hw hlist hitems v hv =>
    himp v (h path inner list items hw hlist hitems v hv)

/-- An object without fields has no items, so every property holds of them. -/
theorem everyItem_nil (q : Json → Prop) : EveryItem q [] := by
  intro path inner list items hw hlist
  cases hw with
  | here => cases hlist
  | item hlist => cases hlist

/-- A property of all items under a field with an expanded list is one of the items of the list and
of all items inside them. -/
theorem everyItem_list_cons {q : Json → Prop} {list : String} {items : List Json}
    {rest : List (String × Json)} (hitems : isExpanded items = true) :
    EveryItem q ((list, arr items) :: rest) ↔
      (∀ v ∈ items, q v) ∧ (∀ fields, obj fields ∈ items → EveryItem q fields) ∧
        EveryItem q rest := by
  constructor
  · intro h
    refine ⟨h [] _ list items (.here _) List.mem_cons_self hitems, ?_, ?_⟩
    · -- What lies inside an item of the list is reached from the object by one step more.
      intro fields hfields path inner list' items' hw
      obtain ⟨position, hposition⟩ := List.getElem?_of_mem hfields
      exact h _ inner list' items' (.item List.mem_cons_self hitems hposition hw)
    · -- What lies in the other fields is reached on the same path.
      intro path inner list' items' hw hlist'
      cases hw with
      | here => exact h [] _ list' items' (.here _) (List.mem_cons_of_mem _ hlist')
      | item hlist hinto hitem hrest =>
        exact h _ inner list' items' (.item (List.mem_cons_of_mem _ hlist) hinto hitem hrest) hlist'
  · rintro ⟨hown, hinside, hrest⟩ path inner list' items' hw hlist' hexp'
    cases hw with
    -- The list is one of the object itself, the first or another.
    | here =>
      rcases List.mem_cons.1 hlist' with he | hlist'
      · cases he
        exact hown
      · exact hrest [] _ list' items' (.here _) hlist' hexp'
    -- The way leads through an item of the first list, or of another.
    | item hlist hinto hitem hw =>
      rcases List.mem_cons.1 hlist with he | hlist
      · cases he
        exact hinside _ (List.mem_of_getElem? hitem) _ inner list' items' hw hlist' hexp'
      · exact hrest _ inner list' items' (.item hlist hinto hitem hw) hlist' hexp'

/-- A field with any other value has no such items. -/
theorem everyItem_value_cons {q : Json → Prop} {name : String} {value : Json}
    {rest : List (String × Json)} (hvalue : value.expands = false) :
    EveryItem q ((name, value) :: rest) ↔ EveryItem q rest := by
  -- An expanded list among the fields is not the value in front.
  have hne : ∀ {list items}, (list, arr items) ∈ (name, value) :: rest →
      isExpanded items = true → (list, arr items) ∈ rest := by
    intro list items hlist hexp
    rcases List.mem_cons.1 hlist with he | hlist
    · cases he
      cases hexp.symm.trans hvalue
    · exact hlist
  constructor
  · intro h path inner list items hw hlist
    cases hw with
    | here => exact h [] _ list items (.here _) (List.mem_cons_of_mem _ hlist)
    | item hlist' hinto hitem hrest =>
      exact h _ inner list items (.item (List.mem_cons_of_mem _ hlist') hinto hitem hrest) hlist
  · intro h path inner list items hw hlist hexp
    cases hw with
    | here => exact h [] _ list items (.here _) (hne hlist hexp) hexp
    | item hlist' hinto hitem hrest =>
      exact h _ inner list items (.item (hne hlist' hinto) hinto hitem hrest) hlist hexp

end Json

end FlatRecord
