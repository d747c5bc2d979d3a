import FlatRecord.Proofs.Record.NormalForm
import FlatRecord.Proofs.Record.Tree

/-!
# Nesting a flattened record

A record that is flattened and nested again is its normal form. `Tree.ofFields` builds the tree of a
record from the record itself: the objects of an expanded list keep their positions, and an object
or a list that holds no value has no branch. The values found in this tree are those that the record
holds (`find?_ofFields_iff`), which are the entries of the flat record, so it is the tree of the
flat record; and its value is the normal form (`childValues_ofFields`), since a branch whose
children are positions closes the gaps between them.
-/

namespace FlatRecord

namespace Tree

/-! ## The tree of a record -/

/-- A branch under a segment, unless it has no children. -/
def grown (s : Segment) : List (Segment × Tree) → List (Segment × Tree)
  | [] => []
  | children => [(s, branch children)]

mutual

/-- The children for the fields of an object. -/
def ofFields : List (String × Json) → List (Segment × Tree)
  | [] => []
  | (name, value) :: rest => ofValue (.field name) value ++ ofFields rest
termination_by structural l => l

/-- The child for the value of a field; none for an expanded list that holds no value. -/
def ofValue (s : Segment) : Json → List (Segment × Tree)
  | .arr items => if Json.isExpanded items then grown s (ofItems 0 items) else [(s, leaf (.arr items))]
  | .null => [(s, leaf .null)]
  | .bool b => [(s, leaf (.bool b))]
  | .int n => [(s, leaf (.int n))]
  | .float x => [(s, leaf (.float x))]
  | .str t => [(s, leaf (.str t))]
  | .obj fields => [(s, leaf (.obj fields))]
termination_by structural v => v

/-- The children for the objects in a list, the first of which has the given position. -/
def ofItems (position : Nat) : List Json → List (Segment × Tree)
  | [] => []
  | .obj fields :: rest => grown (.index position) (ofFields fields) ++ ofItems (position + 1) rest
  | _ :: rest => ofItems (position + 1) rest
termination_by structural l => l

end

/-- A value that is not expanded is a leaf. -/
theorem ofValue_of_expands_eq_false {v : Json} (h : v.expands = false) (s : Segment) :
    ofValue s v = [(s, leaf v)] := by
  cases v with
  | arr items =>
    rw [ofValue, if_neg]
    exact Bool.eq_false_iff.1 h
  | _ => rfl

/-- An expanded list is a branch, unless it holds no value. -/
theorem ofValue_arr {items : List Json} (h : Json.isExpanded items = true) (s : Segment) :
    ofValue s (.arr items) = grown s (ofItems 0 items) := by
  rw [ofValue, if_pos h]

/-- A value that is no object has no child, but its position counts. -/
theorem ofItems_other_cons {v : Json} (h : v.isObject = false) (position : Nat)
    (rest : List Json) : ofItems position (v :: rest) = ofItems (position + 1) rest := by
  cases v with
  | obj fields => cases h
  | _ => rfl

/-! ## Order of the children -/

/-- There is one branch at most, under its segment. -/
theorem map_fst_grown_sublist (s : Segment) (children : List (Segment × Tree)) :
    ((grown s children).map (·.1)).Sublist [s] := by
  cases children with
  | nil => exact List.nil_sublist _
  | cons c rest => exact List.Sublist.refl _

/-- The children for the fields of an object have some of their names, in order. -/
theorem map_fst_ofFields_sublist (fields : List (String × Json)) :
    ((ofFields fields).map (·.1)).Sublist (fields.map fun field => .field field.1) := by
  induction fields with
  | nil => exact .slnil
  | cons field rest ih =>
    obtain ⟨name, value⟩ := field
    rw [ofFields, List.map_append, List.map_cons, ← List.singleton_append]
    refine List.Sublist.append ?_ ih
    -- A value is a child of its own; an expanded list is a branch or no child at all.
    cases hv : value.expands with
    | false =>
      rw [ofValue_of_expands_eq_false hv]
      exact List.Sublist.refl _
    | true =>
      cases value with
      | arr items =>
        rw [ofValue_arr hv]
        exact map_fst_grown_sublist _ _
      | _ => cases hv

/-- The children for the fields of an object ascend if the names do. -/
theorem sorted_ofFields {fields : List (String × Json)} (h : Ascending.Sorted fields) :
    Ascending.Sorted (ofFields fields) := by
  have hfields : Ascending.Sorted (fields.map fun field => (Segment.field field.1, field.2)) :=
    List.pairwise_map.2 h
  refine hfields.of_map_fst_sublist ?_
  rw [List.map_map]
  exact map_fst_ofFields_sublist fields

/-- The children for the objects in a list are at positions from the first one on. -/
theorem exists_index_of_mem_ofItems {items : List Json} {position : Nat} {c : Segment × Tree}
    (hc : c ∈ ofItems position items) : ∃ i, position ≤ i ∧ c.1 = .index i := by
  induction items generalizing position with
  | nil => cases hc
  | cons v rest ih =>
    cases hv : v.isObject with
    | false =>
      -- The item is left out, and the positions of the others are counted on.
      rw [ofItems_other_cons hv] at hc
      obtain ⟨i, hi, hindex⟩ := ih hc
      exact ⟨i, by omega, hindex⟩
    | true =>
      obtain ⟨fields, rfl⟩ := Json.exists_eq_obj hv
      rw [ofItems, List.mem_append] at hc
      rcases hc with hc | hc
      · -- The child is the branch of the first object or one of those that follow.
        have hmem := (map_fst_grown_sublist _ _).subset (List.mem_map.2 ⟨c, hc, rfl⟩)
        exact ⟨position, Nat.le_refl _, List.mem_singleton.1 hmem⟩
      · obtain ⟨i, hi, hindex⟩ := ih hc
        exact ⟨i, by omega, hindex⟩

/-- A branch in front of children that ascend and have greater segments. -/
theorem sorted_grown_append {s : Segment} {children rest : List (Segment × Tree)}
    (hrest : Ascending.Sorted rest) (hlt : ∀ c ∈ rest, compare s c.1 = .lt) :
    Ascending.Sorted (grown s children ++ rest) := by
  cases children with
  | nil => exact hrest
  | cons c cs => exact List.pairwise_cons.2 ⟨hlt, hrest⟩

/-- The children for the objects in a list ascend. -/
theorem sorted_ofItems (position : Nat) (items : List Json) :
    Ascending.Sorted (ofItems position items) := by
  induction items generalizing position with
  | nil => exact .nil
  | cons v rest ih =>
    cases hv : v.isObject with
    | false =>
      rw [ofItems_other_cons hv]
      exact ih _
    | true =>
      obtain ⟨fields, rfl⟩ := Json.exists_eq_obj hv
      -- What follows is at later positions.
      refine sorted_grown_append (ih _) fun c hc => ?_
      obtain ⟨i, hi, hindex⟩ := exists_index_of_mem_ofItems hc
      rw [hindex]
      exact Nat.compare_eq_lt.2 hi

/-! ## The values in the tree -/

/-- What is found below a branch in front of other children. -/
theorem find?_grown_append_iff {s : Segment} {children rest : List (Segment × Tree)}
    (h : Ascending.Sorted (grown s children ++ rest)) {path : List Segment} {v : Json} :
    find? path (branch (grown s children ++ rest)) = some v ↔
      (∃ tail, path = s :: tail ∧ find? tail (branch children) = some v) ∨
        find? path (branch rest) = some v := by
  cases children with
  | nil => simp [grown]
  | cons c cs => exact find?_branch_cons_iff h

/-- The tree of an object holds what the object holds, at the segments of its path and its name. -/
theorem find?_ofFields_iff {fields : List (String × Json)} (h : (Json.obj fields).Ordered)
    {path : List Segment} {v : Json} : find? path (branch (ofFields fields)) = some v ↔
      ∃ p name, path = ItemPath.segments p ++ [.field name] ∧ Json.Holds fields p name v := by
  -- Below the branch of a list the positions stay, also behind items that are no objects or that hold
  -- nothing.
  have cases : Json.ExpandedCases
      (fun fields => (Json.obj fields).Ordered → ∀ path v,
        find? path (branch (ofFields fields)) = some v ↔
          ∃ p name, path = ItemPath.segments p ++ [.field name] ∧ Json.Holds fields p name v)
      (fun items => (∀ v ∈ items, v.Ordered) → ∀ position path v,
        find? path (branch (ofItems position items)) = some v ↔
          ∃ i inner, items[i]? = some (.obj inner) ∧ ∃ p name,
            path = .index (position + i) :: (ItemPath.segments p ++ [.field name]) ∧
              Json.Holds inner p name v) := by
    refine ⟨?nil, ?list, ?value, ?empty, ?item, ?other⟩
    case nil =>
      intro _ path v
      rw [ofFields, find?_branch_nil]
      refine ⟨nofun, ?_⟩
      rintro ⟨p, name, -, hholds⟩
      exact absurd hholds Json.not_holds_empty
    case list =>
      intro list items rest hitems ihItems ihRest h path v
      have hsorted := sorted_ofFields h.1
      rw [ofFields, ofValue_arr hitems] at hsorted ⊢
      rw [find?_grown_append_iff hsorted, ihRest h.of_cons]
      simp only [Json.holds_list_cons hitems, and_or_left, exists_or, ihItems h.items_of_cons,
        Nat.zero_add]
      -- What is below the branch of the list is what its objects hold.
      refine or_congr_left ?_
      constructor
      · rintro ⟨_, rfl, i, inner, hitem, p, name, rfl, hholds⟩
        exact ⟨(list, i) :: p, name, rfl, i, p, inner, rfl, hitem, hholds⟩
      · rintro ⟨_, name, rfl, i, p, inner, rfl, hitem, hholds⟩
        exact ⟨.index i :: (ItemPath.segments p ++ [.field name]), rfl, i, inner, hitem, p, name, rfl,
          hholds⟩
    case value =>
      intro first v' rest hv' ihRest h path v
      have hsorted := sorted_ofFields h.1
      rw [ofFields, ofValue_of_expands_eq_false hv', List.singleton_append] at hsorted ⊢
      rw [find?_branch_cons_iff hsorted, ihRest h.of_cons]
      simp only [Json.holds_value_cons hv', and_or_left, exists_or]
      -- What is at the first name is the value itself.
      refine or_congr_left ?_
      simp only [find?_leaf_eq_some_iff]
      constructor
      · rintro ⟨tail, rfl, rfl, rfl⟩
        exact ⟨[], first, rfl, rfl, rfl, rfl⟩
      · rintro ⟨_, _, rfl, rfl, rfl, rfl⟩
        exact ⟨[], rfl, rfl, rfl⟩
    case empty =>
      intro _ position path v
      rw [ofItems, find?_branch_nil]
      refine ⟨nofun, ?_⟩
      rintro ⟨i, inner, ⟨⟩, -⟩
    case item =>
      intro fields rest ihFields ihRest h position path v
      obtain ⟨hfields, hrest⟩ := List.forall_mem_cons.1 h
      have hsorted := sorted_ofItems position (.obj fields :: rest)
      have hnext : ∀ i, position + 1 + i = position + (i + 1) := by omega
      rw [ofItems, find?_grown_append_iff hsorted, ihRest hrest, Json.exists_item_obj_cons]
      simp only [hnext, Nat.add_zero]
      -- What is below the branch at this position is what the object holds.
      refine or_congr_left ?_
      constructor
      · rintro ⟨tail, rfl, hfind⟩
        obtain ⟨p, name, rfl, hholds⟩ := (ihFields hfields tail v).1 hfind
        exact ⟨p, name, rfl, hholds⟩
      · rintro ⟨p, name, rfl, hholds⟩
        exact ⟨_, rfl, (ihFields hfields _ v).2 ⟨p, name, rfl, hholds⟩⟩
    case other =>
      intro v' rest hv' ihRest h position path v
      have hnext : ∀ i, position + 1 + i = position + (i + 1) := by omega
      -- The item is left out, but it takes up a position.
      rw [ofItems_other_cons hv', ihRest (List.forall_mem_cons.1 h).2,
        Json.exists_item_other_cons hv']
      simp only [hnext]
  exact cases.fields fields h path v

/-- A branch in front of proper children is proper if what is below it is. -/
theorem Proper.grown_append {s : Segment} {children rest : List (Segment × Tree)}
    (hsorted : Ascending.Sorted (grown s children ++ rest)) (h : (Tree.branch children).Proper)
    (hrest : (Tree.branch rest).Proper) : (Tree.branch (grown s children ++ rest)).Proper := by
  cases children with
  | nil => exact hrest
  | cons c cs => exact .cons hsorted nofun h hrest

/-- The tree of an object is proper. -/
theorem proper_ofFields {fields : List (String × Json)} (h : (Json.obj fields).Ordered) :
    (branch (ofFields fields)).Proper := by
  have cases : Json.ExpandedCases
      (fun fields => (Json.obj fields).Ordered → (branch (ofFields fields)).Proper)
      (fun items => (∀ v ∈ items, v.Ordered) → ∀ position,
        (branch (ofItems position items)).Proper) := by
    refine ⟨?nil, ?list, ?value, ?empty, ?item, ?other⟩
    case nil => exact fun _ => .empty
    case list =>
      intro list items rest hitems ihItems ihRest h
      have hsorted := sorted_ofFields h.1
      rw [ofFields, ofValue_arr hitems] at hsorted ⊢
      exact .grown_append hsorted (ihItems h.items_of_cons 0)
        (ihRest h.of_cons)
    case value =>
      intro first v rest hv ihRest h
      have hsorted := sorted_ofFields h.1
      rw [ofFields, ofValue_of_expands_eq_false hv, List.singleton_append] at hsorted ⊢
      exact .cons hsorted nofun (.leaf v) (ihRest h.of_cons)
    case empty => exact fun _ _ => .empty
    case item =>
      intro fields rest ihFields ihRest h position
      obtain ⟨hfields, hrest⟩ := List.forall_mem_cons.1 h
      exact .grown_append (sorted_ofItems position (.obj fields :: rest)) (ihFields hfields)
        (ihRest hrest _)
    case other =>
      intro v rest hv ihRest h position
      rw [ofItems_other_cons hv]
      exact ihRest (List.forall_mem_cons.1 h).2 _
  exact cases.fields fields h

/-! ## The value of the tree -/

/-- The values of two rows of children are those of the one and those of the other. -/
theorem childValues_append (a b : List (Segment × Tree)) :
    childValues (a ++ b) = childValues a ++ childValues b := by
  simp only [childValues_eq_map, List.map_append]

/-- Every child has a value. -/
theorem childValues_eq_nil_iff {children : List (Segment × Tree)} :
    childValues children = [] ↔ children = [] := by
  rw [childValues_eq_map, List.map_eq_nil_iff]

/-- A branch with children has one value. -/
theorem childValues_grown {s : Segment} {children : List (Segment × Tree)} (h : children ≠ []) :
    childValues (grown s children) = [(s, toJson (branch children))] := by
  cases children with
  | nil => exact absurd rfl h
  | cons c rest => rfl

/-- The children for the objects in a list make a list of their values. -/
theorem toJson_ofItems {position : Nat} {items : List Json} (h : ofItems position items ≠ []) :
    toJson (branch (ofItems position items)) =
      .arr ((childValues (ofItems position items)).map (·.2)) := by
  have hindex : ∀ c ∈ ofItems position items, c.1.isIndex = true := by
    intro c hc
    obtain ⟨i, -, hi⟩ := exists_index_of_mem_ofItems hc
    rw [hi]
    rfl
  rw [toJson_branch_of_isIndex h hindex, childValues_eq_map, List.map_map]
  rfl

/-- Values under field names in order make the object of these fields. -/
theorem assemble_fields {fields : List (String × Json)} (h : Ascending.Sorted fields) :
    assemble (fields.map fun field => (.field field.1, field.2)) = .obj fields := by
  have hnames : namedFields (fields.map fun field => (.field field.1, field.2)) = .ofList fields := by
    unfold namedFields
    rw [List.map_map]
    exact congrArg SortedMap.ofList (List.map_id fields)
  have hentries : (SortedMap.ofList fields).entries = fields := SortedMap.entries_ofList h
  unfold assemble Json.ofRecord
  rw [hnames, hentries]
  cases fields with
  | nil => rfl
  | cons field rest => rfl

/-- The values of the children for the fields of an object are the normal form of the fields. -/
theorem childValues_ofFields {fields : List (String × Json)} (h : (Json.obj fields).Ordered) :
    childValues (ofFields fields) =
      (Json.normalFields fields).map fun field => (.field field.1, field.2) := by
  have cases : Json.ExpandedCases
      (fun fields => (Json.obj fields).Ordered → childValues (ofFields fields) =
        (Json.normalFields fields).map fun field => (.field field.1, field.2))
      (fun items => (∀ v ∈ items, v.Ordered) → ∀ position,
        (childValues (ofItems position items)).map (·.2) = Json.normalItems items) := by
    refine ⟨?nil, ?list, ?value, ?empty, ?item, ?other⟩
    case nil => exact fun _ => rfl
    case list =>
      intro list items rest hitems ihItems ihRest h
      have hvalues := ihItems h.items_of_cons 0
      rw [ofFields, ofValue_arr hitems, childValues_append, ihRest h.of_cons,
        Json.normalFields_list_cons hitems]
      by_cases hnil : ofItems 0 items = []
      · -- No object in the list holds a value: the tree has no branch and the normal form no field.
        rw [hnil] at hvalues ⊢
        have hkept : Json.normalItems items = [] := hvalues.symm
        rw [if_pos hkept]
        rfl
      · have hkept : Json.normalItems items ≠ [] := by
          rw [← hvalues, Ne, List.map_eq_nil_iff, childValues_eq_nil_iff]
          exact hnil
        rw [if_neg hkept, childValues_grown hnil, toJson_ofItems hnil, hvalues]
        rfl
    case value =>
      intro first v rest hv ihRest h
      rw [ofFields, ofValue_of_expands_eq_false hv, childValues_append,
        ihRest h.of_cons, Json.normalFields_value_cons hv]
      rfl
    case empty => exact fun _ _ => rfl
    case item =>
      intro fields rest ihFields ihRest h position
      obtain ⟨hfields, hrest⟩ := List.forall_mem_cons.1 h
      have hvalues := ihFields hfields
      rw [ofItems, childValues_append, List.map_append, ihRest hrest, Json.normalItems_obj_cons]
      by_cases hnil : ofFields fields = []
      · -- An object in the list that holds no value has no branch. The next one has a later position,
        -- but the list takes the values in order and so closes the gap.
        rw [hnil] at hvalues ⊢
        rw [if_pos (List.map_eq_nil_iff.1 hvalues.symm)]
        rfl
      · have hkept : Json.normalFields fields ≠ [] := by
          rw [Ne, ← List.map_eq_nil_iff (f := fun field => (Segment.field field.1, field.2)),
            ← hvalues, childValues_eq_nil_iff]
          exact hnil
        rw [if_neg hkept, childValues_grown hnil, toJson, hvalues,
          assemble_fields (Json.sorted_normalFields hfields.1)]
        rfl
    case other =>
      intro v rest hv ihRest h position
      rw [ofItems_other_cons hv, Json.normalItems_other_cons hv]
      exact ihRest (List.forall_mem_cons.1 h).2 _
  exact cases.fields fields h

/-- The record of the tree of a record is the normal form of the record. -/
theorem toRecord_ofFields {r : Record} (h : (Json.ofRecord r).Ordered) :
    (branch (ofFields r.entries)).toRecord = r.normal := by
  refine SortedMap.eq_of_entries_eq ?_
  unfold toRecord namedFields children
  rw [childValues_ofFields h, List.map_map]
  have hid : (Json.normalFields r.entries).map ((fun v => (v.1.name, v.2)) ∘ fun field =>
      (Segment.field field.1, field.2)) = Json.normalFields r.entries := List.map_id _
  rw [hid, SortedMap.entries_ofList (Json.sorted_normalFields r.sorted)]
  rfl

end Tree

/-! ## Round trips -/

variable {r : Record} {f : FlatValues}

/-- The tree of a flattened record is the tree of the record. -/
theorem ofFlat_eq_ofFields (hr : (Json.ofRecord r).Ordered) (h : r.flatten = .ok f) :
    Tree.ofFlat f = .branch (Tree.ofFields r.entries) := by
  -- Both trees are proper, so it is enough that they hold the same values.
  refine Tree.ext_find? (Tree.proper_ofFlat f) (Tree.proper_ofFields hr) fun path => ?_
  refine Option.ext fun v => ?_
  rw [Tree.find?_ofFlat_iff]
  constructor
  · -- An entry of the flat record is a value that the record holds, and so is in its tree.
    rintro ⟨-, hget, -⟩
    obtain ⟨p, name, hholds, hkey⟩ := Record.holds_of_get?_flatten h hget
    exact (Tree.find?_ofFields_iff hr).2 ⟨p, name, congrArg Key.segments hkey, hholds⟩
  · intro hfind
    obtain ⟨p, name, rfl, hholds⟩ := (Tree.find?_ofFields_iff hr).1 hfind
    refine ⟨List.append_ne_nil_of_right_ne_nil _ (List.cons_ne_nil _ _),
      (Record.get?_flatten_iff hr h).2 hholds, fun rest hrest => ?_⟩
    -- A value in the tree of the record has nothing below it, so no entry has a longer key.
    cases hget : f.get? ⟨ItemPath.segments p ++ [.field name] ++ rest⟩ with
    | none => rfl
    | some w =>
      obtain ⟨p', name', hholds', hkey⟩ := Record.holds_of_get?_flatten h hget
      have hbelow := (Tree.find?_ofFields_iff hr).2
        ⟨p', name', congrArg Key.segments hkey, hholds'⟩
      rw [Tree.find?_append_of_find?_eq_some hfind hrest] at hbelow
      cases hbelow

/-- A flattened record nests to its normal form. -/
theorem nest_flatten (hr : (Json.ofRecord r).Ordered) (h : r.flatten = .ok f) :
    f.nest = r.normal := by
  calc f.nest = (Tree.ofFlat f).toRecord := rfl
    _ = (Tree.branch (Tree.ofFields r.entries)).toRecord := by rw [ofFlat_eq_ofFields hr h]
    _ = r.normal := Tree.toRecord_ofFields hr

/-- The normal form of a record can be flattened, and nests to itself. -/
theorem exists_flatten_normal (hr : (Json.ofRecord r).Ordered) :
    ∃ g, r.normal.flatten = .ok g ∧ g.nest = r.normal := by
  have hitems : Json.EveryItem (fun v => v.isObject = true ∧ v ≠ .obj []) r.normal.entries :=
    Json.everyItem_normalFields r.entries
  obtain ⟨g, hg⟩ := Record.exists_flatten_iff.2 (hitems.imp fun _ hv => hv.1)
  have hordered : (Json.ofRecord r.normal).Ordered := Json.ordered_normalFields hr
  refine ⟨g, hg, ?_⟩
  rw [nest_flatten hordered hg]
  exact (Record.normal_eq_self_iff hg).2 (hitems.imp fun _ hv => hv.2)

/-- Nesting what a record was flattened to gives the normal form of the record. That is the record
itself exactly when no expanded list in it has an empty object, and the normal form can always be
flattened and comes back as it is. -/
theorem nest_flatten_eq_normal (hr : (Json.ofRecord r).Ordered) (h : r.flatten = .ok f) :
    f.nest = r.normal ∧ (f.nest = r ↔ Json.EveryItem (· ≠ .obj []) r.entries) ∧
      ∃ g, r.normal.flatten = .ok g ∧ g.nest = r.normal := by
  refine ⟨nest_flatten hr h, ?_, exists_flatten_normal hr⟩
  rw [nest_flatten hr h]
  exact Record.normal_eq_self_iff h

/-- A record that loses objects at two levels, and a list with its field. -/
def gapped : Record where
  entries := [("a", .arr [.obj [], .obj [("b", .arr [.obj []]),
    ("c", .arr [.obj [], .obj [("d", .int 1)]])]]), ("e", .arr [])]
  sorted := by decide

/-- The two values that flattening sees in it. -/
def gappedFlat : FlatValues := .ofList [(⟨[.field "e"]⟩, .arr []),
  (⟨[.field "a", .index 1, .field "c", .index 1, .field "d"]⟩, .int 1)]

/-- `gapped` loses the objects without values, and its normal form loses nothing more. -/
theorem nest_flatten_eq_normal_gapped :
    (Json.ofRecord gapped).Ordered ∧ gapped.flatten = .ok gappedFlat ∧
      gappedFlat.nest = gapped.normal ∧
      (gappedFlat.nest = gapped ↔ Json.EveryItem (· ≠ .obj []) gapped.entries) ∧
      ∃ g, gapped.normal.flatten = .ok g ∧ g.nest = gapped.normal :=
  ⟨by decide, rfl, nest_flatten_eq_normal (by decide) rfl⟩

end FlatRecord
