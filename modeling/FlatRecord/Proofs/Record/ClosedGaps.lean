import FlatRecord.Proofs.Record.ClosedKeys
import FlatRecord.Proofs.Record.Entries

/-!
# Flattening a nested flat record

Nesting a flat record and flattening the result gives the record back, up to what nesting loses
(`flatten_nest`): the kept entries, under their keys with the gaps closed.

The proof goes through the tree of the flat record. All its paths lead through objects and lists to a
field (`Tree.Layered`), so the nested record holds exactly the values found in the tree, each on its
settled path (`Tree.Layered.holds_toRecord_iff`). The number of children before a position, to which
`Tree.settled` lowers it, is the number of positions in use before it (`Tree.settled_eq_closedFrom`).
Lowering keeps the order of the kept keys, so they stay apart and the entries stay in order.
-/

namespace FlatRecord

/-! ## Trees of fields -/

/-- The segments lead through objects and lists in turn, from the given place on, to the value of a
field. -/
def LeadsToField : Place → List Segment → Prop
  | .object, .field _ :: rest => LeadsToField .list rest
  | .list, .index _ :: rest => LeadsToField .object rest
  | .list, [] => True
  | _, _ => False

/-- Segments that lead from an object to the value of a field are those of a path and the name. -/
theorem LeadsToField.exists_path : ∀ {path : List Segment}, LeadsToField .object path →
    ∃ p name, path = ItemPath.segments p ++ [.field name]
  | [.field name], _ => ⟨[], name, rfl⟩
  | .field list :: .index position :: rest, h => by
    have hrest : LeadsToField .object rest := h
    obtain ⟨p, name, hp⟩ := hrest.exists_path
    exact ⟨(list, position) :: p, name, by rw [hp]; rfl⟩

/-- The segments of a path and a name lead from an object to the value of a field. -/
theorem leadsToField_path (p : ItemPath) (name : String) :
    LeadsToField .object (ItemPath.segments p ++ [.field name]) := by
  induction p with
  | nil => exact trivial
  | cons step p ih => exact ih

namespace Tree

/-- A proper tree all of whose paths lead, from the given place on, to values of fields that are no
expanded lists. -/
structure Layered (place : Place) (t : Tree) : Prop where
  /-- The tree has no branches that lead nowhere. -/
  proper : t.Proper
  /-- Every path to a value leads to the value of a field. -/
  leads : ∀ path v, find? path t = some v → LeadsToField place path
  /-- No value is an expanded list. -/
  kept : ∀ path v, find? path t = some v → v.expands = false

namespace Layered

variable {place : Place} {t c : Tree} {s : Segment} {name : String} {v : Json}

/-- A path to the value of a field goes through each child. -/
theorem exists_leads (h : t.Layered place) (hc : Ascending.get? s t.children = some c) :
    ∃ path, LeadsToField place (s :: path) := by
  obtain ⟨hne, hproper⟩ := h.proper.of_get?_children hc
  obtain ⟨path, v, hv⟩ := hproper.exists_find? hne
  exact ⟨path, h.leads (s :: path) v (by rw [find?, hc, Option.bind_some, hv])⟩

/-- The children of an object stand under fields. -/
theorem exists_field (h : t.Layered .object) (hc : Ascending.get? s t.children = some c) :
    ∃ name, s = .field name := by
  obtain ⟨path, hpath⟩ := h.exists_leads hc
  cases s with
  | field name => exact ⟨name, rfl⟩
  | index i => exact hpath.elim
  | control c => exact hpath.elim

/-- The children of a list stand at positions. -/
theorem exists_index (h : t.Layered .list) (hc : Ascending.get? s t.children = some c) :
    ∃ i, s = .index i := by
  obtain ⟨path, hpath⟩ := h.exists_leads hc
  cases s with
  | index i => exact ⟨i, rfl⟩
  | field name => exact hpath.elim
  | control c => exact hpath.elim

/-- The paths of a child go on from its place. -/
theorem child (h : t.Layered place) (hc : Ascending.get? s t.children = some c) :
    c.Layered place.next := by
  have hbelow : ∀ path v, find? path c = some v → find? (s :: path) t = some v := by
    intro path v hv
    rw [find?, hc, Option.bind_some, hv]
  refine ⟨(h.proper.of_get?_children hc).2, fun path v hv => ?_,
    fun path v hv => h.kept _ v (hbelow path v hv)⟩
  have hpath : LeadsToField place (s :: path) := h.leads _ v (hbelow path v hv)
  cases place <;> cases s <;> first | exact hpath | exact hpath.elim

/-- An object is a branch. -/
theorem eq_branch (h : t.Layered .object) : t = branch t.children := by
  cases t with
  | leaf value => exact (h.leads [] value rfl).elim
  | branch children => rfl

/-- The value of an object is its record. -/
theorem toJson_object (h : t.Layered .object) : t.toJson = .ofRecord t.toRecord := by
  rw [h.eq_branch]
  refine toJson_branch_of_not_isIndex fun c hc => ?_
  obtain ⟨name, hname⟩ := h.exists_field ((Ascending.get?_eq_some_iff h.proper.sorted_children).2 hc)
  rw [hname]
  rfl

/-- The value of a list is that of its objects, and it is expanded. -/
theorem toJson_list (h : t.Layered .list) (hne : t.children ≠ []) :
    t.toJson = .arr (t.children.map fun c => .ofRecord c.2.toRecord) ∧ t.toJson.expands = true := by
  cases t with
  | leaf value => exact absurd rfl hne
  | branch children =>
    have hget : ∀ c ∈ children, Ascending.get? c.1 (branch children).children = some c.2 :=
      fun c hc => (Ascending.get?_eq_some_iff h.proper.sorted_children).2 hc
    have hlist : toJson (branch children) = .arr (children.map fun c => toJson c.2) := by
      refine toJson_branch_of_isIndex hne fun c hc => ?_
      obtain ⟨i, hi⟩ := h.exists_index (hget c hc)
      rw [hi]
      rfl
    have hitems : (children.map fun c => toJson c.2) = children.map fun c => .ofRecord c.2.toRecord :=
      List.map_congr_left fun c hc => (h.child (hget c hc)).toJson_object
    rw [hlist, hitems]
    refine ⟨rfl, ?_⟩
    -- There is an item, and the first one is an object.
    cases children with
    | nil => exact absurd rfl hne
    | cons c rest => rfl

/-- An object has a value under the name of each child, and no other values. -/
theorem mem_toRecord_iff (h : t.Layered .object) : (name, v) ∈ t.toRecord.entries ↔
    ∃ c, Ascending.get? (.field name) t.children = some c ∧ c.toJson = v := by
  have huniq : ∀ c ∈ t.children, c.1.name = (Segment.field name).name → c.1 = .field name := by
    intro c hc hname
    obtain ⟨name', hname'⟩ :=
      h.exists_field ((Ascending.get?_eq_some_iff h.proper.sorted_children).2 hc)
    rw [hname'] at hname ⊢
    exact congrArg Segment.field hname
  have hget := Tree.get?_toRecord h.proper.sorted_children huniq
  rw [← SortedMap.get?_eq_some_iff]
  show t.toRecord.get? (Segment.field name).name = some v ↔ _
  rw [hget, Option.map_eq_some_iff]

/-- The expanded lists of an object are those of its children that are branches. -/
theorem exists_list_iff (h : t.Layered .object) {items : List Json} :
    (name, .arr items) ∈ t.toRecord.entries ∧ Json.isExpanded items = true ↔
      ∃ c, Ascending.get? (.field name) t.children = some c ∧ c.children ≠ [] ∧
        items = c.children.map fun d => .ofRecord d.2.toRecord := by
  rw [h.mem_toRecord_iff]
  constructor
  · rintro ⟨⟨c, hc, hvalue⟩, hexpanded⟩
    have hlist : c.Layered .list := h.child hc
    have hne : c.children ≠ [] := by
      -- A value below which nothing is has to be the one found there.
      intro hnil
      cases c with
      | leaf value =>
        have hkept : value.expands = false := hlist.kept [] value rfl
        have hvalue : value = .arr items := hvalue
        rw [hvalue] at hkept
        cases hkept.symm.trans hexpanded
      | branch children =>
        have hnil : children = [] := hnil
        exact (h.proper.of_get?_children hc).1 (congrArg branch hnil)
    refine ⟨c, hc, hne, ?_⟩
    rw [(hlist.toJson_list hne).1] at hvalue
    exact (Json.arr.inj hvalue).symm
  · rintro ⟨c, hc, hne, rfl⟩
    obtain ⟨hvalue, hexpands⟩ := Layered.toJson_list (h.child hc) hne
    rw [hvalue] at hexpands
    exact ⟨⟨c, hc, hvalue⟩, hexpands⟩

/-- The objects in the lists of an object are those of the children of its children, each as far on in
the list as it has children before it. -/
theorem exists_item_iff (h : t.Layered .object) {position : Nat} {inner : List (String × Json)} :
    (∃ items, (name, .arr items) ∈ t.toRecord.entries ∧ Json.isExpanded items = true ∧
        items[position]? = some (.obj inner)) ↔
      ∃ c i d, Ascending.get? (.field name) t.children = some c ∧
        Ascending.get? (.index i) c.children = some d ∧
        Ascending.rank (.index i) c.children = position ∧ inner = d.toRecord.entries := by
  constructor
  · rintro ⟨items, hlist, hexpanded, hitem⟩
    obtain ⟨c, hc, -, rfl⟩ := h.exists_list_iff.1 ⟨hlist, hexpanded⟩
    have hc' : c.Layered .list := h.child hc
    -- The item is the record of a child, whose position is the number of children before it.
    rw [List.getElem?_map, Option.map_eq_some_iff] at hitem
    obtain ⟨⟨s, d⟩, hd, hrecord⟩ := hitem
    have hget : Ascending.get? s c.children = some d :=
      (Ascending.get?_eq_some_iff hc'.proper.sorted_children).2 (List.mem_of_getElem? hd)
    obtain ⟨i, rfl⟩ := hc'.exists_index hget
    exact ⟨c, i, d, hc, hget, Ascending.rank_of_getElem? hc'.proper.sorted_children hd,
      (Json.obj.inj hrecord).symm⟩
  · rintro ⟨c, i, d, hc, hd, rfl, rfl⟩
    have hc' : c.Layered .list := h.child hc
    have hmem : (Segment.index i, d) ∈ c.children :=
      (Ascending.get?_eq_some_iff hc'.proper.sorted_children).1 hd
    obtain ⟨hlist, hexpanded⟩ := h.exists_list_iff.2 ⟨c, hc, List.ne_nil_of_mem hmem, rfl⟩
    refine ⟨_, hlist, hexpanded, ?_⟩
    rw [List.getElem?_map, Ascending.getElem?_rank hc'.proper.sorted_children hmem]
    rfl

/-- The way through the lists of the record of an object leads to the record of an object in it. -/
theorem exists_of_within {fields inner : List (String × Json)} {path : ItemPath}
    (hw : Json.Within Json.isExpanded fields path inner) (h : t.Layered .object)
    (hfields : fields = t.toRecord.entries) :
    ∃ d : Tree, d.Layered .object ∧ inner = d.toRecord.entries := by
  induction hw generalizing t with
  | here fields => exact ⟨t, h, hfields⟩
  | item hlist hinto hitem _ ih =>
    subst hfields
    obtain ⟨c, i, d, hc, hd, -, hinner⟩ := h.exists_item_iff.1 ⟨_, hlist, hinto, hitem⟩
    exact ih (Layered.child (h.child hc) hd) hinner

/-- Every item of every expanded list in the record of an object is an object. -/
theorem everyItem_toRecord (h : t.Layered .object) :
    Json.EveryItem (·.isObject = true) t.toRecord.entries := by
  intro path inner list items hw hlist hexpanded v hv
  obtain ⟨d, hd, rfl⟩ := exists_of_within hw h rfl
  obtain ⟨c, -, -, rfl⟩ := hd.exists_list_iff.1 ⟨hlist, hexpanded⟩
  obtain ⟨e, -, rfl⟩ := List.mem_map.1 hv
  rfl

/-- A value found one step below an object is that of a field. -/
theorem find?_field_iff (h : t.Layered .object) :
    find? [.field name] t = some v ↔ (name, v) ∈ t.toRecord.entries ∧ v.expands = false := by
  rw [h.mem_toRecord_iff, find?, Option.bind_eq_some_iff]
  constructor
  · rintro ⟨c, hc, hv⟩
    -- What is found one step below is a value that lies there.
    cases c with
    | leaf value =>
      cases hv
      exact ⟨⟨_, hc, rfl⟩, (h.child hc).kept [] v rfl⟩
    | branch children => cases hv
  · rintro ⟨⟨c, hc, rfl⟩, hkept⟩
    refine ⟨c, hc, ?_⟩
    cases c with
    | leaf value => rfl
    | branch children =>
      -- A branch makes an expanded list.
      have hne : (branch children).children ≠ [] := fun hnil =>
        (h.proper.of_get?_children hc).1 (congrArg branch hnil)
      have hexpands := (Layered.toJson_list (h.child hc) hne).2
      cases hkept.symm.trans hexpands

/-- The record of an object holds the values found in the tree, each on its settled path. -/
theorem holds_toRecord_iff (h : t.Layered .object) {p : ItemPath} :
    Json.Holds t.toRecord.entries p name v ↔
      ∃ path, find? path t = some v ∧ settled path t = ItemPath.segments p ++ [.field name] := by
  induction p generalizing t with
  | nil =>
    rw [Json.holds_nil, ← h.find?_field_iff]
    constructor
    · exact fun hfind => ⟨_, hfind, rfl⟩
    · rintro ⟨path, hfind, hsettled⟩
      -- A path settled to one segment is one field.
      obtain ⟨q, last, rfl⟩ := (h.leads path v hfind).exists_path
      cases q with
      | nil =>
        cases hsettled
        exact hfind
      | cons step q => cases hsettled
  | cons step p ih =>
    obtain ⟨list, position⟩ := step
    rw [Json.holds_cons]
    constructor
    · rintro ⟨items, inner, hlist, hinto, hitem, hholds⟩
      -- The list is a child, and the item a child of that; the rest of the path goes on from there.
      obtain ⟨c, i, d, hc, hd, rfl, rfl⟩ := h.exists_item_iff.1 ⟨items, hlist, hinto, hitem⟩
      obtain ⟨path, hfind, hsettled⟩ := (ih (Layered.child (h.child hc) hd)).1 hholds
      refine ⟨.field list :: .index i :: path, ?_, ?_⟩
      · rw [find?, hc, Option.bind_some, find?, hd, Option.bind_some, hfind]
      · rw [settled, settled, hc, Option.getD_some, hd, Option.getD_some, hsettled]
        rfl
    · rintro ⟨path, hfind, hsettled⟩
      obtain ⟨q, last, rfl⟩ := (h.leads path v hfind).exists_path
      cases q with
      -- A path that is settled to a list and more has a list in it.
      | nil => cases p <;> cases hsettled
      | cons step q =>
        obtain ⟨list', i⟩ := step
        obtain ⟨c, hc, hbelow⟩ := Option.bind_eq_some_iff.1 hfind
        obtain ⟨d, hd, hbelow⟩ := Option.bind_eq_some_iff.1 hbelow
        -- The path goes into a child of a child, whose name and place are those of the step.
        rw [ItemPath.segments_cons, List.cons_append, List.cons_append, settled, settled, hc,
          Option.getD_some, hd, Option.getD_some] at hsettled
        obtain ⟨hlist, hrest⟩ := List.cons.inj hsettled
        obtain ⟨hposition, hrest⟩ := List.cons.inj hrest
        cases Segment.field.inj hlist
        obtain ⟨items, hitems⟩ := h.exists_item_iff.2
          ⟨c, i, d, hc, hd, Segment.index.inj hposition, rfl⟩
        have hholds := (ih (Layered.child (h.child hc) hd)).2 ⟨_, hbelow, hrest⟩
        exact ⟨items, _, hitems.1, hitems.2.1, hitems.2.2, hholds⟩

end Layered

/-! ## Settled paths -/

section Settled

variable {g : FlatValues} {t : Tree} {before path : List Segment} {v : Json}

/-- Where a tree holds the values of a flat record below some segments, it has a child at a position
that some key has after them. -/
theorem isSome_get?_index (ht : t.Proper)
    (hsame : ∀ path v, find? path t = some v ↔ g.get? ⟨before ++ path⟩ = some v) (j : Nat) :
    (Ascending.get? (.index j) t.children).isSome = true ↔
      (g.keys.any fun k => k.startsWith ⟨before ++ [.index j]⟩) = true := by
  rw [Option.isSome_iff_exists, List.any_eq_true]
  constructor
  · rintro ⟨c, hc⟩
    -- A child holds a value, so an entry goes on from its key.
    obtain ⟨hne, hproper⟩ := ht.of_get?_children hc
    obtain ⟨path, v, hv⟩ := hproper.exists_find? hne
    have hget := (hsame (.index j :: path) v).1 (by rw [find?, hc, Option.bind_some, hv])
    refine ⟨_, SortedMap.mem_keys_of_get? hget, List.isPrefixOf_iff_prefix.2 ?_⟩
    exact ⟨path, List.append_assoc ..⟩
  · rintro ⟨k, hk, hbegin⟩
    obtain ⟨rest, hrest⟩ := List.isPrefixOf_iff_prefix.1 hbegin
    obtain ⟨v, hv⟩ := SortedMap.mem_keys_iff.1 hk
    have hkey : k = ⟨before ++ .index j :: rest⟩ := by rw [List.append_cons, hrest]
    -- An entry goes on from the key, so its value is found below a child.
    rw [hkey] at hv
    obtain ⟨c, hc, -⟩ := Option.bind_eq_some_iff.1 ((hsame (.index j :: rest) v).2 hv)
    exact ⟨c, hc⟩

/-- Where a tree holds the values of a flat record below some segments, a path to a value is settled
as the key of the value is closed. -/
theorem settled_eq_closedFrom (ht : t.Proper)
    (hsame : ∀ path v, find? path t = some v ↔ g.get? ⟨before ++ path⟩ = some v)
    (hfind : find? path t = some v) : settled path t = g.closedFrom before path := by
  induction path generalizing t before with
  | nil => rfl
  | cons s path ih =>
    obtain ⟨c, hc, hbelow⟩ := Option.bind_eq_some_iff.1 hfind
    -- A position moves to the number of children before it, any other segment stays.
    have hsegment : settle s t.children = g.closedSegment before s := by
      cases s with
      | index i =>
        refine congrArg Segment.index ?_
        rw [Ascending.rank_index_eq_countP ht.sorted_children]
        exact List.countP_congr fun j _ => isSome_get?_index ht hsame j
      | field name => rfl
      | control c => rfl
    have hrest : settled path c = g.closedFrom (before ++ [s]) path := by
      refine ih (ht.of_get?_children hc).2 (fun path v => ?_) hbelow
      rw [List.append_assoc, List.singleton_append, ← hsame, find?, hc, Option.bind_some]
    rw [settled, hc, Option.getD_some, hsegment, hrest, FlatValues.closedFrom]

end Settled

end Tree

/-! ## Flattening the nested record -/

namespace FlatValues

variable {f : FlatValues}

/-- In the tree of a flat record whose keys are those of fields the kept values are found. -/
theorem find?_ofFlat_iff_kept
    (hkeys : ∀ k ∈ f.keys, ∃ (p : ItemPath) (name : String), k = p.key.field name)
    (path : List Segment) (v : Json) :
    Tree.find? path (Tree.ofFlat f) = some v ↔ f.kept.get? ⟨path⟩ = some v := by
  rw [Tree.find?_ofFlat_iff, get?_kept_iff]
  refine ⟨fun h => h.2, fun h => ⟨fun hnil => ?_, h⟩⟩
  obtain ⟨p, name, hkey⟩ := hkeys _ (SortedMap.mem_keys_of_get? h.1)
  have hpath : path = ItemPath.segments p ++ [.field name] := congrArg Key.segments hkey
  exact List.append_ne_nil_of_right_ne_nil _ (List.cons_ne_nil _ _) (hpath.symm.trans hnil)

/-- The tree of a flat record is one of fields when the keys are and no value is an expanded list. -/
theorem layered_ofFlat
    (hkeys : ∀ k ∈ f.keys, ∃ (p : ItemPath) (name : String), k = p.key.field name)
    (hvalues : ∀ k v, f.get? k = some v → v.expands = false) :
    (Tree.ofFlat f).Layered .object := by
  refine ⟨Tree.proper_ofFlat f, fun path v hfind => ?_, fun path v hfind => ?_⟩
  · have hget := (Tree.find?_ofFlat_iff.1 hfind).2.1
    obtain ⟨p, name, hkey⟩ := hkeys _ (SortedMap.mem_keys_of_get? hget)
    have hpath : path = ItemPath.segments p ++ [.field name] := congrArg Key.segments hkey
    rw [hpath]
    exact leadsToField_path p name
  · exact hvalues _ v (Tree.find?_ofFlat_iff.1 hfind).2.1

/-- Segments that lead to the value of a field do so with the gaps closed. -/
theorem leadsToField_closedFrom {place : Place} {before path : List Segment}
    (h : LeadsToField place path) : LeadsToField place (f.closedFrom before path) := by
  induction path generalizing place before with
  | nil => exact h
  | cons s path ih =>
    cases place <;> cases s <;> first | exact h.elim | exact @ih _ _ h

/-- The kept entries under their keys with the gaps closed, which ascend as the keys do. -/
def compacted (f : FlatValues) : FlatValues where
  entries := f.kept.entries.map fun e => (f.kept.closed e.1, e.2)
  sorted := by
    have hsorted : f.kept.entries.Pairwise fun a b => compare a.1 b.1 = .lt := f.kept.sorted
    refine List.pairwise_map.2 (hsorted.imp_of_mem fun ha _ hlt => ?_)
    exact compare_closed hlt (List.mem_map.2 ⟨_, ha, rfl⟩)

/-- A value is found under the key that its own is closed to. -/
theorem get?_compacted_iff {k : Key} {v : Json} :
    f.compacted.get? k = some v ↔ ∃ key, f.kept.get? key = some v ∧ f.kept.closed key = k := by
  rw [SortedMap.get?_eq_some_iff]
  constructor
  · intro hmem
    obtain ⟨e, he, heq⟩ := List.mem_map.1 hmem
    obtain ⟨rfl, rfl⟩ := Prod.mk.inj heq
    exact ⟨e.1, (SortedMap.get?_eq_some_iff f.kept).2 he, rfl⟩
  · rintro ⟨key, hget, rfl⟩
    exact List.mem_map.2 ⟨(key, v), (SortedMap.get?_eq_some_iff f.kept).1 hget, rfl⟩

/-- The nested form holds the kept entries under their keys with the gaps closed. -/
theorem holds_nest_iff
    (hkeys : ∀ k ∈ f.keys, ∃ (p : ItemPath) (name : String), k = p.key.field name)
    (hvalues : ∀ k v, f.get? k = some v → v.expands = false) {p : ItemPath} {name : String} {v : Json} :
    Json.Holds f.nest.entries p name v ↔ f.compacted.get? (p.key.field name) = some v := by
  have hlayered : (Tree.ofFlat f).Layered .object := layered_ofFlat hkeys hvalues
  have hsame := find?_ofFlat_iff_kept hkeys
  have hsettled : ∀ {path v}, Tree.find? path (Tree.ofFlat f) = some v →
      Tree.settled path (Tree.ofFlat f) = f.kept.closedFrom [] path := fun hfind =>
    @Tree.settled_eq_closedFrom f.kept (Tree.ofFlat f) [] _ _ (Tree.proper_ofFlat f) hsame hfind
  -- What the nested record holds are the values of the tree, and these are the kept ones.
  rw [get?_compacted_iff]
  refine hlayered.holds_toRecord_iff.trans ⟨?_, ?_⟩
  · rintro ⟨path, hfind, hpath⟩
    rw [hsettled hfind] at hpath
    exact ⟨⟨path⟩, (hsame path v).1 hfind, congrArg Key.mk hpath⟩
  · rintro ⟨⟨path⟩, hget, hclosed⟩
    have hfind : Tree.find? path (Tree.ofFlat f) = some v := (hsame path v).2 hget
    exact ⟨path, hfind, (hsettled hfind).trans (congrArg Key.segments hclosed)⟩

/-- The kept entries with the gaps closed are under keys of fields. -/
theorem exists_eq_field_of_get?_compacted
    (hkeys : ∀ k ∈ f.keys, ∃ (p : ItemPath) (name : String), k = p.key.field name)
    (hvalues : ∀ k v, f.get? k = some v → v.expands = false) {k : Key} {v : Json}
    (hget : f.compacted.get? k = some v) : ∃ (p : ItemPath) (name : String), k = p.key.field name := by
  obtain ⟨key, hkept, hclosed⟩ := get?_compacted_iff.1 hget
  have hfind : Tree.find? key.segments (Tree.ofFlat f) = some v :=
    (find?_ofFlat_iff_kept hkeys _ v).2 hkept
  have hleads : LeadsToField .object (f.kept.closedFrom [] key.segments) :=
    leadsToField_closedFrom ((layered_ofFlat hkeys hvalues).leads _ v hfind)
  obtain ⟨p, name, hpath⟩ := hleads.exists_path
  exact ⟨p, name, hclosed.symm.trans (congrArg Key.mk hpath)⟩

/-- Flattening the nested form gives the kept entries under their keys with the gaps closed. -/
theorem flatten_nest_eq_compacted
    (hkeys : ∀ k ∈ f.keys, ∃ (p : ItemPath) (name : String), k = p.key.field name)
    (hvalues : ∀ k v, f.get? k = some v → v.expands = false) :
    f.nest.flatten = .ok f.compacted := by
  have hlayered : (Tree.ofFlat f).Layered .object := layered_ofFlat hkeys hvalues
  obtain ⟨g, hg⟩ : ∃ g, f.nest.flatten = .ok g :=
    Record.exists_flatten_iff.2 hlayered.everyItem_toRecord
  have hself : g = f.compacted := by
    refine SortedMap.ext_get? fun k => Option.ext fun v => ?_
    constructor
    · intro hget
      obtain ⟨p, name, hheld, rfl⟩ := Record.holds_of_get?_flatten hg hget
      exact (holds_nest_iff hkeys hvalues).1 hheld
    · intro hget
      -- The key is again that of a field, so the flat record has a value there, which is this one.
      obtain ⟨p, name, rfl⟩ := exists_eq_field_of_get?_compacted hkeys hvalues hget
      obtain ⟨w, hw⟩ := Record.exists_get?_flatten hg ((holds_nest_iff hkeys hvalues).2 hget)
      obtain ⟨p', name', hheld, hkey⟩ := Record.holds_of_get?_flatten hg hw
      rw [hkey, (holds_nest_iff hkeys hvalues).1 hheld] at hget
      rw [hw, hget]
  rw [hg, hself]

end FlatValues

/-- Flattening the nested form of a flat record gives the entries from whose keys no longer key goes
on, in order, under their keys with the gaps closed. Nothing changes if that is all entries and there
are no gaps. -/
theorem flatten_nest {f : FlatValues}
    (hkeys : ∀ k ∈ f.keys, ∃ (p : ItemPath) (name : String), k = p.key.field name)
    (hvalues : ∀ k v, f.get? k = some v → v.expands = false) :
    ∃ g, f.nest.flatten = .ok g ∧
      g.entries = f.kept.entries.map (fun e => (f.kept.closed e.1, e.2)) ∧
      (∀ k ∈ f.kept.keys, ∀ l, compare k l = .lt →
        compare (f.kept.closed k) (f.kept.closed l) = .lt) ∧
      ((∀ k ∈ f.keys, f.Ends k) → (∀ k ∈ f.keys, f.Gapless k) → g = f) := by
  refine ⟨f.compacted, FlatValues.flatten_nest_eq_compacted hkeys hvalues, rfl,
    fun k hk l hlt => FlatValues.compare_closed hlt hk, fun hends hfull => ?_⟩
  refine SortedMap.ext_get? fun k => Option.ext fun v => ?_
  rw [FlatValues.get?_compacted_iff, FlatValues.kept_eq_self hends]
  have hself : ∀ {key v}, f.get? key = some v → f.closed key = key := fun hget =>
    FlatValues.closed_eq_self (hfull _ (SortedMap.mem_keys_of_get? hget))
  -- With all keys kept and no gaps every entry stays where it is.
  constructor
  · rintro ⟨key, hget, rfl⟩
    rwa [hself hget]
  · exact fun hget => ⟨k, hget, hself hget⟩

/-- Positions with gaps at two levels, and a value in the way of the longer keys. -/
def sparse : FlatValues := .ofList [
  (⟨[.field "a"]⟩, .str "x"),
  (⟨[.field "a", .index 5, .field "d"]⟩, .arr []),
  (⟨[.field "a", .index 2, .field "b", .index 3, .field "c"]⟩, .int 1),
  (⟨[.field "a", .index 2, .field "b", .index 7, .field "c"]⟩, .int 2),
  (⟨[.field "a", .index 5, .field "b", .index 1, .field "c"]⟩, .int 3)]

/-- What is left of it. -/
def dense : FlatValues := .ofList [
  (⟨[.field "a", .index 1, .field "d"]⟩, .arr []),
  (⟨[.field "a", .index 0, .field "b", .index 0, .field "c"]⟩, .int 1),
  (⟨[.field "a", .index 0, .field "b", .index 1, .field "c"]⟩, .int 2),
  (⟨[.field "a", .index 1, .field "b", .index 0, .field "c"]⟩, .int 3)]

/-- Flattening the nested record closes the gaps of `sparse`, and the value in the way of longer keys is
dropped. -/
theorem flatten_nest_sparse :
    (∀ k ∈ sparse.keys, ∃ (p : ItemPath) (name : String), k = p.key.field name) ∧
      (∀ k v, sparse.get? k = some v → v.expands = false) ∧ sparse.nest.flatten = .ok dense ∧
      ∃ g, sparse.nest.flatten = .ok g ∧
        g.entries = sparse.kept.entries.map (fun e => (sparse.kept.closed e.1, e.2)) ∧
        (∀ k ∈ sparse.kept.keys, ∀ l, compare k l = .lt →
          compare (sparse.kept.closed k) (sparse.kept.closed l) = .lt) ∧
        ((∀ k ∈ sparse.keys, sparse.Ends k) → (∀ k ∈ sparse.keys, sparse.Gapless k) → g = sparse) := by
  have hkeys : ∀ k ∈ sparse.keys, ∃ (p : ItemPath) (name : String), k = p.key.field name :=
    List.forall_mem_cons.2 ⟨⟨[], "a", rfl⟩, List.forall_mem_cons.2 ⟨⟨[("a", 5)], "d", rfl⟩,
      List.forall_mem_cons.2 ⟨⟨[("a", 2), ("b", 3)], "c", rfl⟩,
        List.forall_mem_cons.2 ⟨⟨[("a", 2), ("b", 7)], "c", rfl⟩,
          List.forall_mem_cons.2 ⟨⟨[("a", 5), ("b", 1)], "c", rfl⟩, nofun⟩⟩⟩⟩⟩
  have hvalues : ∀ k v, sparse.get? k = some v → v.expands = false := by
    intro k v hget
    have hall : ∀ e ∈ sparse.entries, e.2.expands = false := by decide
    exact hall (k, v) ((SortedMap.get?_eq_some_iff sparse).1 hget)
  exact ⟨hkeys, hvalues, rfl, flatten_nest hkeys hvalues⟩

end FlatRecord
