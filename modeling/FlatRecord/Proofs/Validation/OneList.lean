import FlatRecord.Proofs.Schema.Items
import FlatRecord.Proofs.Validation.Run

/-!
# Records with one list

The entries of a record that is one list of objects are those of its objects, each below the position of
the object (`get?_flatten_ofList_iff`). So an object has the same entries in every such list, whatever its
position and whatever the other objects (`sameItem_flatten`).

The record can be flattened when each of its objects can (`exists_flatten_ofList_iff`), and what is
flattened can be completed when no entry in an object is misplaced (`exists_complete_ofList_iff`). Both
are about the objects one by one, so a list has an outcome if each of its objects is in a list that has
one (`exists_validate_ofList`).
-/

namespace FlatRecord

/-- A schema with one list. -/
def Schema.ofList (name : String) (node : Schema) : Schema where
  fields := [(name, .sub node)]

/-- A record with one list of objects. -/
def Record.ofList (name : String) (objects : List (List (String × Json))) : Record where
  entries := [(name, .arr (objects.map .obj))]
  sorted := List.pairwise_singleton _ _

variable {list : String} {objects objects' : List (List (String × Json))} {f f' : FlatValues}
  {i j : Nat} {rest : List Segment} {v : Json} {s : Schema} {c : Context}

/-- The list of some objects is expanded when there is one. -/
theorem isExpanded_map_obj : Json.isExpanded (objects.map .obj) = true ↔ objects ≠ [] := by
  cases objects with
  | nil => exact ⟨nofun, fun h => absurd rfl h⟩
  | cons fields rest => exact ⟨fun _ => List.cons_ne_nil _ _, fun _ => rfl⟩

/-- A record with one list is ordered if its objects are. -/
theorem ordered_ofList (h : ∀ fields ∈ objects, (Json.obj fields).Ordered) :
    (Json.ofRecord (Record.ofList list objects)).Ordered := by
  refine ⟨List.pairwise_singleton _ _, Json.orderedItems_iff.2 fun v hv => ?_, trivial⟩
  obtain ⟨fields, hfields, rfl⟩ := List.mem_map.1 hv
  exact h fields hfields

/-- A value in the record is one in an object of the list. -/
theorem holds_ofList_iff {path : ItemPath} {name : String} :
    Json.Holds (Record.ofList list objects).entries ((list, i) :: path) name v ↔
      ∃ fields, objects[i]? = some fields ∧ Json.Holds fields path name v := by
  rw [Json.holds_cons]
  constructor
  · -- The list is the only field, so the object gone into is one of the list.
    rintro ⟨items, inner, hlist, -, hitem, hholds⟩
    have hitems : items = objects.map .obj :=
      Json.arr.inj (Prod.mk.inj (List.mem_singleton.1 hlist)).2
    rw [hitems, List.getElem?_map] at hitem
    obtain ⟨fields, hfields, heq⟩ := Option.map_eq_some_iff.1 hitem
    rw [← Json.obj.inj heq] at hholds
    exact ⟨fields, hfields, hholds⟩
  · rintro ⟨fields, hfields, hholds⟩
    refine ⟨objects.map .obj, fields, List.mem_singleton.2 rfl, ?_, ?_, hholds⟩
    · exact isExpanded_map_obj.2 (List.ne_nil_of_mem (List.mem_of_getElem? hfields))
    · rw [List.getElem?_map, hfields, Option.map_some]

section Flattened

variable (hobjects : ∀ fields ∈ objects, (Json.obj fields).Ordered)
  (hf : (Record.ofList list objects).flatten = .ok f)

include hobjects hf

/-- The entries below a position are those of the object there. -/
theorem get?_flatten_ofList_iff : f.get? (.inItem list i rest) = some v ↔
    ∃ fields path name, objects[i]? = some fields ∧
      rest = ItemPath.segments path ++ [.field name] ∧ Json.Holds fields path name v := by
  constructor
  · intro hget
    obtain ⟨path, name, hholds, hkey⟩ := Record.holds_of_get?_flatten hf hget
    obtain ⟨p, rfl, rfl⟩ := ItemPath.exists_of_push_eq_inItem hkey.symm
    obtain ⟨fields, hfields, hholds⟩ := holds_ofList_iff.1 hholds
    exact ⟨fields, p, name, hfields, rfl, hholds⟩
  · rintro ⟨fields, path, name, hfields, rfl, hholds⟩
    have hrecord : Json.Holds (Record.ofList list objects).entries ((list, i) :: path) name v :=
      holds_ofList_iff.2 ⟨fields, hfields, hholds⟩
    exact (Record.get?_flatten_iff (ordered_ofList hobjects) hf).2 hrecord

/-- Where there is an entry, there is an object. -/
theorem lt_length_of_mem_keys (hk : .inItem list i rest ∈ f.keys) : i < objects.length := by
  obtain ⟨v, hv⟩ := SortedMap.mem_keys_iff.1 hk
  obtain ⟨fields, -, -, hfields, -⟩ := (get?_flatten_ofList_iff hobjects hf).1 hv
  exact (List.getElem?_eq_some_iff.1 hfields).1

/-- The same object has the same entries. -/
theorem sameItem_flatten (hobjects' : ∀ fields ∈ objects', (Json.obj fields).Ordered)
    (hf' : (Record.ofList list objects').flatten = .ok f') (h : objects[i]? = objects'[j]?) :
    SameItem list i j f f' := by
  intro rest
  refine Option.ext fun v => ?_
  rw [get?_flatten_ofList_iff hobjects hf, get?_flatten_ofList_iff hobjects' hf', h]

end Flattened

/-- A list of objects can be flattened when each of the objects can. -/
theorem exists_flatten_ofList_iff : (∃ f, (Record.ofList list objects).flatten = .ok f) ↔
    ∀ fields ∈ objects, Json.EveryItem (·.isObject = true) fields := by
  rw [Record.exists_flatten_iff]
  show Json.EveryItem _ [(list, .arr (objects.map .obj))] ↔ _
  by_cases hnil : objects = []
  · -- The empty list has no items at all.
    subst hnil
    exact ⟨fun _ => nofun, fun _ => (Json.everyItem_value_cons rfl).2 (Json.everyItem_nil _)⟩
  · rw [Json.everyItem_list_cons (isExpanded_map_obj.2 hnil)]
    constructor
    · rintro ⟨-, hinside, -⟩ fields hfields
      exact hinside fields (List.mem_map_of_mem hfields)
    · -- Every item is an object, and the lists inside the objects have objects only.
      intro h
      refine ⟨fun v hv => ?_, fun fields hfields => ?_, Json.everyItem_nil _⟩
      · obtain ⟨fields, -, rfl⟩ := List.mem_map.1 hv
        rfl
      · obtain ⟨fields', hfields', heq⟩ := List.mem_map.1 hfields
        cases heq
        exact h fields hfields'

/-- An entry is one in an object, or the list itself if it is empty. -/
theorem exists_inItem_of_get?_flatten (hf : (Record.ofList list objects).flatten = .ok f) {k : Key}
    (hk : f.get? k = some v) : (∃ i rest, k = .inItem list i rest) ∨ v = .arr [] := by
  obtain ⟨path, name, hholds, rfl⟩ := Record.holds_of_get?_flatten hf hk
  cases path with
  | nil =>
    obtain ⟨hmem, hexpands⟩ := Json.holds_nil.1 hholds
    -- The list is the only field: it is not gone into when it is empty.
    cases List.mem_singleton.1 hmem
    by_cases hnil : objects = []
    · rw [hnil]
      exact .inr rfl
    · have hexpanded : (Json.arr (objects.map .obj)).expands = true := isExpanded_map_obj.2 hnil
      rw [hexpanded] at hexpands
      cases hexpands
  | cons step path =>
    obtain ⟨items, inner, hlist, -⟩ := Json.holds_cons.1 hholds
    have hname : step.1 = list := (Prod.mk.inj (List.mem_singleton.1 hlist)).1
    refine .inl ⟨step.2, ItemPath.segments path ++ [.field name], ?_⟩
    rw [← hname]
    rfl

/-- A flattened list of objects can be completed when no entry in an object is misplaced. -/
theorem exists_complete_ofList_iff (hf : (Record.ofList list objects).flatten = .ok f) :
    (∃ a, (Expansion.of s f).complete f = .ok a) ↔ ∀ i rest v,
      f.get? (.inItem list i rest) = some v →
        (Expansion.of s f).route (.inItem list i rest) v ≠ .misplaced := by
  rw [Expansion.exists_complete_iff]
  refine ⟨fun h i rest v hv => h _ v hv, fun h k v hv => ?_⟩
  rcases exists_inItem_of_get?_flatten hf hv with ⟨i, rest, rfl⟩ | rfl
  · exact h i rest v hv
  · -- The empty list is never misplaced.
    rw [Ne, Expansion.route_eq_misplaced_iff]
    exact fun hmisplaced => nomatch hmisplaced.2.2

/-- A list of objects has an outcome if each of the objects is in a list that has one. -/
theorem exists_validate_ofList (hs : s.Distinct)
    (hobjects : ∀ fields ∈ objects, (Json.obj fields).Ordered)
    (h : ∀ fields ∈ objects, ∃ objects', fields ∈ objects' ∧
      (∀ fields' ∈ objects', (Json.obj fields').Ordered) ∧
        ∃ o, validate (.ofList list objects') s c = .ok o) :
    ∃ o, validate (.ofList list objects) s c = .ok o := by
  simp only [exists_validate_iff] at h ⊢
  obtain ⟨f, hf⟩ : ∃ f, (Record.ofList list objects).flatten = .ok f := by
    refine exists_flatten_ofList_iff.2 fun fields hfields => ?_
    obtain ⟨objects', hmem, -, f', hf', -⟩ := h fields hfields
    exact exists_flatten_ofList_iff.1 ⟨f', hf'⟩ fields hmem
  refine ⟨f, hf, (exists_complete_ofList_iff hf).2 fun i rest v hv => ?_⟩
  -- The entry is one in an object, and that object has it in the other list too.
  have hi : i < objects.length := lt_length_of_mem_keys hobjects hf (SortedMap.mem_keys_of_get? hv)
  obtain ⟨objects', hmem, hobjects', f', hf', hcomplete⟩ := h objects[i] (List.getElem_mem hi)
  obtain ⟨j, hj⟩ := List.mem_iff_getElem?.1 hmem
  have hsame : SameItem list i j f f' :=
    sameItem_flatten hobjects hf hobjects' hf' ((List.getElem?_eq_getElem hi).trans hj.symm)
  have hv' : f'.get? (.inItem list j rest) = some v := (hsame rest).symm.trans hv
  rw [Ne, Expansion.route_inItem_eq_misplaced_iff hs hf hf' hsame]
  exact (exists_complete_ofList_iff hf').1 hcomplete j rest v hv'

end FlatRecord
