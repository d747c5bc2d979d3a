import FlatRecord.Proofs.Record.Entries

/-!
# The normal form of a record

Flattening does not see an empty object in an expanded list. What is left of a record without them
is its normal form, `Record.normal`: each object in an expanded list is brought into normal form
first and left out if nothing is left of it, and a list without an object left is left out with its
field. All other values are kept as they are.

A record is its own normal form exactly when no expanded list in it, reached through expanded lists,
has an empty object (`normal_eq_self_iff`), and a normal form is one of a record that can be
flattened (`exists_flatten_normal`).
-/

namespace FlatRecord

namespace Json

mutual

/-- The normal form of the fields of an object. -/
def normalFields : List (String × Json) → List (String × Json)
  | [] => []
  | (name, value) :: rest => match normalValue? value with
    | some kept => (name, kept) :: normalFields rest
    | none => normalFields rest
termination_by structural l => l

/-- The normal form of the value of a field; nothing for an expanded list of which no item is
left. -/
def normalValue? : Json → Option Json
  | arr items =>
    if isExpanded items then
      match normalItems items with
      | [] => none
      | kept => some (arr kept)
    else some (arr items)
  | null => some null
  | bool b => some (bool b)
  | int n => some (int n)
  | float x => some (float x)
  | str s => some (str s)
  | obj fields => some (obj fields)
termination_by structural v => v

/-- The normal forms of the objects in a list that are not empty. In the lists of a record that can
be flattened every item is an object; any other item is left out. -/
def normalItems : List Json → List Json
  | [] => []
  | obj fields :: rest => match normalFields fields with
    | [] => normalItems rest
    | kept => obj kept :: normalItems rest
  | _ :: rest => normalItems rest
termination_by structural l => l

end

/-! ## One field and one item at a time -/

/-- A field with an expanded list stays if an item of it does. -/
theorem normalFields_list_cons {items : List Json} (h : isExpanded items = true) (name : String)
    (rest : List (String × Json)) : normalFields ((name, arr items) :: rest) =
      if normalItems items = [] then normalFields rest
      else (name, arr (normalItems items)) :: normalFields rest := by
  rw [normalFields, normalValue?, if_pos h]
  cases hitems : normalItems items with
  | nil => rfl
  | cons v kept => rw [if_neg (List.cons_ne_nil v kept)]

/-- A field with any other value stays as it is. -/
theorem normalFields_value_cons {v : Json} (h : v.expands = false) (name : String)
    (rest : List (String × Json)) :
    normalFields ((name, v) :: rest) = (name, v) :: normalFields rest := by
  cases v with
  | arr items =>
    rw [normalFields, normalValue?, if_neg]
    exact Bool.eq_false_iff.1 h
  | _ => rfl

/-- An object in a list stays if a field of it does. -/
theorem normalItems_obj_cons (fields : List (String × Json)) (rest : List Json) :
    normalItems (obj fields :: rest) = if normalFields fields = [] then normalItems rest
      else obj (normalFields fields) :: normalItems rest := by
  rw [normalItems]
  cases hfields : normalFields fields with
  | nil => rfl
  | cons field kept => rw [if_neg (List.cons_ne_nil field kept)]

/-- Any other item is left out. -/
theorem normalItems_other_cons {v : Json} (h : v.isObject = false) (rest : List Json) :
    normalItems (v :: rest) = normalItems rest := by
  cases v with
  | obj fields => cases h
  | _ => rfl

/-! ## Order -/

/-- The normal form has some of the names, in their order. -/
theorem map_fst_normalFields_sublist (fields : List (String × Json)) :
    ((normalFields fields).map (·.1)).Sublist (fields.map (·.1)) := by
  induction fields with
  | nil => exact .slnil
  | cons field rest ih =>
    obtain ⟨name, value⟩ := field
    rw [normalFields]
    cases normalValue? value with
    | none => exact ih.cons _
    | some kept => exact ih.cons_cons _

/-- The names of a normal form ascend if those of the object do. -/
theorem sorted_normalFields {fields : List (String × Json)} (h : Ascending.Sorted fields) :
    Ascending.Sorted (normalFields fields) :=
  h.of_map_fst_sublist (map_fst_normalFields_sublist fields)

/-- Bringing a list into normal form makes it no longer. -/
theorem length_normalItems_le (items : List Json) : (normalItems items).length ≤ items.length := by
  induction items with
  | nil => exact Nat.le_refl _
  | cons v rest ih =>
    cases hv : v.isObject with
    | false =>
      rw [normalItems_other_cons hv, List.length_cons]
      omega
    | true =>
      obtain ⟨fields, rfl⟩ := exists_eq_obj hv
      rw [normalItems_obj_cons]
      split <;> simp only [List.length_cons] <;> omega

/-! ## Fixed points -/

/-- The fields of an object are their own normal form when no expanded list has an empty object. -/
theorem normalFields_eq_self_iff {fields : List (String × Json)}
    (h : EveryItem (·.isObject = true) fields) :
    normalFields fields = fields ↔ EveryItem (· ≠ obj []) fields := by
  have cases : ExpandedCases
      (fun fields => EveryItem (·.isObject = true) fields →
        (normalFields fields = fields ↔ EveryItem (· ≠ obj []) fields))
      (fun items => (∀ v ∈ items, v.isObject = true) →
        (∀ fields, obj fields ∈ items → EveryItem (·.isObject = true) fields) →
        (normalItems items = items ↔ (∀ v ∈ items, v ≠ obj []) ∧
          ∀ fields, obj fields ∈ items → EveryItem (· ≠ obj []) fields)) := by
    refine ⟨?nil, ?list, ?value, ?empty, ?item, ?other⟩
    case nil => exact fun _ => ⟨fun _ => everyItem_nil _, fun _ => rfl⟩
    case list =>
      intro list items rest hitems ihItems ihRest h
      obtain ⟨hobjects, hinside, hrest⟩ := (everyItem_list_cons hitems).1 h
      rw [normalFields_list_cons hitems, everyItem_list_cons hitems, ← and_assoc,
        ← ihItems hobjects hinside, ← ihRest hrest]
      by_cases hnil : normalItems items = []
      · -- Then the field is left out, and the list, which has a first item, is not its normal form.
        rw [if_pos hnil, hnil]
        constructor
        · intro heq
          have hlen := (map_fst_normalFields_sublist rest).length_le
          rw [List.length_map, List.length_map, heq, List.length_cons] at hlen
          omega
        · rintro ⟨rfl, -⟩
          cases hitems
      · -- Otherwise the field stays, and the question is about the list and the other fields.
        rw [if_neg hnil, List.cons.injEq, Prod.mk.injEq, arr.injEq]
        exact and_congr_left fun _ => ⟨fun heq => heq.2, fun heq => ⟨rfl, heq⟩⟩
    case value =>
      intro name v rest hv ihRest h
      rw [normalFields_value_cons hv, everyItem_value_cons hv,
        ← ihRest ((everyItem_value_cons hv).1 h), List.cons.injEq]
      exact ⟨fun heq => heq.2, fun heq => ⟨rfl, heq⟩⟩
    case empty => exact fun _ _ => ⟨fun _ => ⟨nofun, nofun⟩, fun _ => rfl⟩
    case item =>
      intro fields rest ihFields ihRest hobjects hinside
      obtain ⟨-, hobjects⟩ := List.forall_mem_cons.1 hobjects
      have hfields := ihFields (hinside fields List.mem_cons_self)
      have hrest := ihRest hobjects fun fields' h => hinside fields' (List.mem_cons_of_mem _ h)
      rw [forall_obj_mem_cons, List.forall_mem_cons, and_and_and_comm, ← hrest, ← hfields,
        normalItems_obj_cons]
      by_cases hnil : normalFields fields = []
      · rw [if_pos hnil, hnil]
        -- The item is left out, which makes the list shorter: it is not its own normal form.
        constructor
        · intro heq
          have hlen := length_normalItems_le rest
          rw [heq, List.length_cons] at hlen
          omega
        · rintro ⟨⟨hne, rfl⟩, -⟩
          exact absurd rfl hne
      · -- The item stays, and as it is not empty its fields decide.
        rw [if_neg hnil, List.cons.injEq, obj.injEq]
        refine and_congr_left fun _ => ⟨fun heq => ⟨?_, heq⟩, fun heq => heq.2⟩
        rintro ⟨⟩
        exact hnil rfl
    case other =>
      intro v rest hv ihRest hobjects
      -- All items are objects, so this one is.
      cases hv.symm.trans (hobjects v List.mem_cons_self)
  exact cases.fields fields h

/-- In a normal form every item of an expanded list is an object that is not empty. -/
theorem everyItem_normalFields (fields : List (String × Json)) :
    EveryItem (fun v => v.isObject = true ∧ v ≠ obj []) (normalFields fields) := by
  have cases : ExpandedCases
      (fun fields => EveryItem (fun v => v.isObject = true ∧ v ≠ obj []) (normalFields fields))
      (fun items => (∀ v ∈ normalItems items, v.isObject = true ∧ v ≠ obj []) ∧
        ∀ fields, obj fields ∈ normalItems items →
          EveryItem (fun v => v.isObject = true ∧ v ≠ obj []) fields) := by
    refine ⟨?nil, ?list, ?value, ?empty, ?item, ?other⟩
    case nil => exact everyItem_nil _
    case list =>
      intro list items rest hitems ihItems ihRest
      rw [normalFields_list_cons hitems]
      by_cases hnil : normalItems items = []
      · -- The list has nothing left and is dropped.
        rw [if_pos hnil]
        exact ihRest
      · -- The items that stay are objects and there is one, so their list is expanded as well.
        have hexpanded : isExpanded (normalItems items) = true :=
          isExpanded_of_forall_isObject hnil fun v hv => (ihItems.1 v hv).1
        rw [if_neg hnil, everyItem_list_cons hexpanded]
        exact ⟨ihItems.1, ihItems.2, ihRest⟩
    case value =>
      intro name v rest hv ihRest
      rw [normalFields_value_cons hv, everyItem_value_cons hv]
      exact ihRest
    case empty => exact ⟨nofun, nofun⟩
    case item =>
      intro fields rest ihFields ihRest
      rw [normalItems_obj_cons]
      by_cases hnil : normalFields fields = []
      · -- The object has nothing left and is dropped.
        rw [if_pos hnil]
        exact ihRest
      · -- The object stays, and it is not empty.
        have hne : obj (normalFields fields) ≠ obj [] := fun heq => hnil (obj.inj heq)
        rw [if_neg hnil, forall_obj_mem_cons, List.forall_mem_cons]
        exact ⟨⟨⟨rfl, hne⟩, ihRest.1⟩, ihFields, ihRest.2⟩
    case other =>
      intro v rest hv ihRest
      rw [normalItems_other_cons hv]
      exact ihRest
  exact cases.fields fields

/-- A normal form is ordered if the object is. -/
theorem ordered_normalFields {fields : List (String × Json)} (h : (obj fields).Ordered) :
    (obj (normalFields fields)).Ordered := by
  have cases : ExpandedCases
      (fun fields => (obj fields).Ordered → (obj (normalFields fields)).Ordered)
      (fun items => (∀ v ∈ items, v.Ordered) → ∀ v ∈ normalItems items, v.Ordered) := by
    refine ⟨?nil, ?list, ?value, ?empty, ?item, ?other⟩
    case nil => exact id
    case list =>
      intro list items rest hitems ihItems ihRest h
      refine ⟨sorted_normalFields h.1, ?_⟩
      have hrest := ihRest h.of_cons
      rw [normalFields_list_cons hitems]
      -- The field of the list is dropped, or the list is in normal form.
      split
      · exact hrest.2
      · exact ⟨orderedItems_iff.2 (ihItems h.items_of_cons), hrest.2⟩
    case value =>
      intro name v rest hv ihRest h
      refine ⟨sorted_normalFields h.1, ?_⟩
      rw [normalFields_value_cons hv]
      exact ⟨h.2.1, (ihRest h.of_cons).2⟩
    case empty => exact fun _ => nofun
    case item =>
      intro fields rest ihFields ihRest h
      obtain ⟨hfields, hrest⟩ := List.forall_mem_cons.1 h
      rw [normalItems_obj_cons]
      split
      · exact ihRest hrest
      · exact List.forall_mem_cons.2 ⟨ihFields hfields, ihRest hrest⟩
    case other =>
      intro v rest hv ihRest h
      rw [normalItems_other_cons hv]
      exact ihRest (List.forall_mem_cons.1 h).2
  exact cases.fields fields h

end Json

namespace Record

/-- The normal form of a record. -/
def normal (r : Record) : Record :=
  ⟨Json.normalFields r.entries, Json.sorted_normalFields r.sorted⟩

/-- A record that can be flattened is its own normal form exactly when no expanded list in it has an
empty object. -/
theorem normal_eq_self_iff {r : Record} {f : FlatValues} (h : r.flatten = .ok f) :
    r.normal = r ↔ Json.EveryItem (· ≠ .obj []) r.entries := by
  rw [← Json.normalFields_eq_self_iff (exists_flatten_iff.1 ⟨f, h⟩)]
  exact ⟨fun heq => congrArg SortedMap.entries heq, fun heq => SortedMap.eq_of_entries_eq heq⟩

end Record

end FlatRecord
