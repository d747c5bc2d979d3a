import FlatRecord.Proofs.Record.Nesting
import FlatRecord.Proofs.Record.Objects

/-!
# Items of a list at the top

The keys that lead into an item of a list at the top of a record differ from one item to another in the
position only. `SameItem` says that two maps have the same values below an item each.

Nesting makes an item of what is below it, whatever its position: two items that are the `SameItem` are
made into the same value (`item?_ofFlat_eq`), and the list has one after the other the items below which
there is a value (`items?_nest`). So the items of two flat records one after the other are those of a
flat record that has below the first positions what the one has and below the next what the other has
(`itemsTo_add`).
-/

namespace FlatRecord

/-- The key of what is at the end of a path in an item of a list at the top. -/
def Key.inItem (list : String) (position : Nat) (rest : List Segment) : Key :=
  ⟨.field list :: .index position :: rest⟩

/-- Below an item each, two maps have the same values. -/
def SameItem {β : Type} (list : String) (i j : Nat) (m m' : SortedMap Key β) : Prop :=
  ∀ rest, m.get? (.inItem list i rest) = m'.get? (.inItem list j rest)

section Paths

variable {list : String} {i j : Nat} {rest : List Segment}

/-- The object at a path is in an item when the path goes through the item. -/
theorem ItemPath.exists_of_key_eq_inItem {path : ItemPath} (h : path.key = .inItem list i rest) :
    ∃ p, path = (list, i) :: p ∧ rest = segments p := by
  cases path with
  | nil => cases h
  | cons step p =>
    cases h
    exact ⟨p, rfl, rfl⟩

/-- What is directly in an object is in an item when the path of the object goes through the item. -/
theorem ItemPath.exists_of_push_eq_inItem {path : ItemPath} {last : Segment}
    (h : path.key.push last = .inItem list i rest) :
    ∃ p, path = (list, i) :: p ∧ rest = segments p ++ [last] := by
  cases path with
  | nil => cases h
  | cons step p =>
    cases h
    exact ⟨p, rfl, rfl⟩

/-- Having the same values below an item is symmetric in the two maps. -/
theorem SameItem.symm {β : Type} {m m' : SortedMap Key β} (h : SameItem list i j m m') :
    SameItem list j i m' m := fun rest => (h rest).symm

/-- Below their items, two such maps have the same keys. -/
theorem SameItem.mem_keys {β : Type} {m m' : SortedMap Key β} (h : SameItem list i j m m')
    (rest : List Segment) (hmem : .inItem list i rest ∈ m.keys) : .inItem list j rest ∈ m'.keys := by
  obtain ⟨v, hv⟩ := SortedMap.mem_keys_iff.1 hmem
  exact SortedMap.mem_keys_of_get? ((h rest).symm.trans hv)

end Paths

namespace Tree

/-! ## Items in a tree -/

variable {list : String} {i j n : Nat} {t u : Tree}

/-- What is below an item of a list at the top. -/
def item? (list : String) (i : Nat) (t : Tree) : Option Tree :=
  (Ascending.get? (.field list) t.children).bind fun c => Ascending.get? (.index i) c.children

/-- A path into an item goes on in the tree of the item. -/
theorem find?_inItem (list : String) (i : Nat) (rest : List Segment) (t : Tree) :
    find? (.field list :: .index i :: rest) t = (t.item? list i).bind (find? rest) := by
  unfold item?
  rw [find?, Option.bind_assoc]
  rfl

/-- An item of a proper tree is proper and not without children. -/
theorem Proper.of_item? (ht : t.Proper) {c : Tree} (h : t.item? list i = some c) :
    c ≠ Tree.branch [] ∧ c.Proper := by
  obtain ⟨b, hb, hc⟩ := Option.bind_eq_some_iff.1 h
  exact (ht.of_get?_children hb).2.of_get?_children hc

/-- Items in which the same values are found are the same. -/
theorem item?_eq (ht : t.Proper) (hu : u.Proper) (h : ∀ rest,
    find? (.field list :: .index i :: rest) t = find? (.field list :: .index j :: rest) u) :
    t.item? list i = u.item? list j := by
  refine ext_find?_option (fun c hc => ht.of_item? hc) (fun c hc => hu.of_item? hc) fun rest => ?_
  rw [← find?_inItem, ← find?_inItem, h]

/-- Children at positions, one position after the other. -/
theorem map_toJson_children {children : List (Segment × Tree)} (h : Ascending.Sorted children)
    (hindex : ∀ c ∈ children, ∃ i, i < n ∧ c.1 = .index i) :
    (children.map fun c => toJson c.2) =
      (List.range n).filterMap fun i => (Ascending.get? (.index i) children).map toJson := by
  -- The children are found again at the positions, in their order.
  have hchildren : children = (List.range n).filterMap fun i =>
      (Ascending.get? (.index i) children).map fun c => (Segment.index i, c) := by
    have hsorted : Ascending.Sorted ((List.range n).filterMap fun i =>
        (Ascending.get? (.index i) children).map fun c => (Segment.index i, c)) := by
      unfold Ascending.Sorted
      rw [List.pairwise_filterMap]
      -- Children taken by their positions ascend.
      refine List.pairwise_lt_range.imp fun {i j} hij e he e' he' => ?_
      obtain ⟨c, -, rfl⟩ := Option.map_eq_some_iff.1 he
      obtain ⟨c', -, rfl⟩ := Option.map_eq_some_iff.1 he'
      exact Nat.compare_eq_lt.2 hij
    refine Ascending.eq_of_get?_eq h hsorted fun s => Option.ext fun c => ?_
    rw [Ascending.get?_eq_some_iff h, Ascending.get?_eq_some_iff hsorted, List.mem_filterMap]
    constructor
    · -- A child is found at its position, which is one of those gone through.
      intro hmem
      obtain ⟨i, hi, hs⟩ := hindex (s, c) hmem
      have hs : s = .index i := hs
      refine ⟨i, List.mem_range.2 hi, ?_⟩
      rw [hs] at hmem ⊢
      rw [(Ascending.get?_eq_some_iff h).2 hmem, Option.map_some]
    · -- What is found at a position is a child.
      rintro ⟨i, -, he⟩
      obtain ⟨c', hc', heq⟩ := Option.map_eq_some_iff.1 he
      cases heq
      exact (Ascending.get?_eq_some_iff h).1 hc'
  calc (children.map fun c => toJson c.2)
      = ((List.range n).filterMap fun i => (Ascending.get? (.index i) children).map fun c =>
          (Segment.index i, c)).map fun c => toJson c.2 := by rw [← hchildren]
    _ = (List.range n).filterMap fun i => (Ascending.get? (.index i) children).map toJson := by
        rw [List.map_filterMap]
        simp only [Option.map_map]
        rfl

end Tree

/-- The items under a name; a record without the name has none, and one with another value no list of
them. -/
def Record.items? (r : Record) (name : String) : Option (List Json) :=
  match r.get? name with
  | none => some []
  | some (.arr items) => some items
  | some _ => none

/-- A tree has one after the other the items in which a value is found. -/
theorem Tree.items?_toRecord {t : Tree} {list : String} {n : Nat} (ht : t.Proper)
    (hname : ∀ c ∈ t.children, c.1.name = list → c.1 = .field list)
    (hindex : ∀ rest v, find? (.field list :: rest) t = some v →
      ∃ i rest', i < n ∧ rest = .index i :: rest') :
    t.toRecord.items? list =
      some ((List.range n).filterMap fun i => (t.item? list i).map toJson) := by
  have hget : t.toRecord.get? (Segment.field list).name =
      (Ascending.get? (.field list) t.children).map toJson :=
    get?_toRecord ht.sorted_children hname
  unfold Record.items? item?
  rw [Segment.name] at hget
  rw [hget]
  cases hc : Ascending.get? (.field list) t.children with
  -- Without a child there is no list, and nothing below an item.
  | none => simp
  | some c =>
    have hbelow : ∀ rest, find? (.field list :: rest) t = find? rest c := by
      intro rest
      rw [find?, hc, Option.bind_some]
    obtain ⟨hne, hproper⟩ := ht.of_get?_children hc
    cases c with
    -- A value in the place of the list would be below no item.
    | leaf value =>
      obtain ⟨i, rest, -, hnil⟩ := hindex [] value (hbelow [])
      cases hnil
    | branch children =>
      -- All children of the list are at positions up to the number of items.
      have hpositions : ∀ c ∈ children, ∃ i, i < n ∧ c.1 = .index i := by
        rintro ⟨s, c⟩ hmem
        obtain ⟨hne', hproper'⟩ := hproper.of_mem_children hmem
        obtain ⟨path, v, hv⟩ := hproper'.exists_find? hne'
        have hchild : Ascending.get? s (branch children).children = some c :=
          (Ascending.get?_eq_some_iff hproper.sorted_children).2 hmem
        have hfind : find? (.field list :: s :: path) t = some v := by
          rw [hbelow, find?, hchild, Option.bind_some]
          exact hv
        obtain ⟨i, rest, hi, hpath⟩ := hindex _ v hfind
        exact ⟨i, hi, (List.cons.inj hpath).1⟩
      have hlist : toJson (branch children) = .arr (children.map fun c => toJson c.2) := by
        refine toJson_branch_of_isIndex (fun hnil => hne (congrArg branch hnil)) fun c hmem => ?_
        obtain ⟨i, -, hi⟩ := hpositions c hmem
        rw [hi]
        rfl
      have hsorted : Ascending.Sorted children := hproper.sorted_children
      rw [Option.map_some, hlist, map_toJson_children hsorted hpositions]
      rfl

namespace FlatValues

variable {f f' : FlatValues} {list : String} {i j n : Nat}

/-- Items with the same values are nested alike. -/
theorem item?_ofFlat_eq (h : SameItem list i j f f') :
    (Tree.ofFlat f).item? list i = (Tree.ofFlat f').item? list j := by
  refine Tree.item?_eq (Tree.proper_ofFlat f) (Tree.proper_ofFlat f') fun rest => ?_
  refine Option.ext fun v => ?_
  rw [Tree.find?_ofFlat_iff, Tree.find?_ofFlat_iff]
  have hhere : f.get? ⟨.field list :: .index i :: rest⟩ = f'.get? ⟨.field list :: .index j :: rest⟩ :=
    h rest
  have hbelow : ∀ more, f.get? ⟨.field list :: .index i :: rest ++ more⟩ =
      f'.get? ⟨.field list :: .index j :: rest ++ more⟩ := fun more => h (rest ++ more)
  rw [hhere]
  simp only [hbelow, ne_eq, reduceCtorEq, not_false_eq_true, true_and]

/-- The items that nesting makes of what is below the first positions of a list, for those below which
there is a value. -/
def itemsTo (list : String) (n : Nat) (f : FlatValues) : List Json :=
  (List.range n).filterMap fun i => ((Tree.ofFlat f).item? list i).map Tree.toJson

/-- What is below the first positions as in one flat record, and below the next ones as in another, is
made into the items of the one and then those of the other. -/
theorem itemsTo_add {m : Nat} {f₁ f₂ : FlatValues} (hfirst : ∀ i, i < n → SameItem list i i f f₁)
    (hnext : ∀ i, SameItem list (n + i) i f f₂) :
    f.itemsTo list (n + m) = f₁.itemsTo list n ++ f₂.itemsTo list m := by
  -- Up to the last position of the one, both have the same items.
  have hmap : (List.range n).map ((Tree.ofFlat f).item? list ·) =
      (List.range n).map ((Tree.ofFlat f₁).item? list ·) :=
    List.map_congr_left fun i hi => item?_ofFlat_eq (hfirst i (List.mem_range.1 hi))
  have hitems : ∀ g : FlatValues, g.itemsTo list n =
      ((List.range n).map ((Tree.ofFlat g).item? list ·)).filterMap (·.map Tree.toJson) := by
    intro g
    rw [List.filterMap_map]
    rfl
  have hfirst' : f.itemsTo list n = f₁.itemsTo list n := by rw [hitems, hitems, hmap]
  -- Behind it the items are those of the other, moved by the number of positions.
  have hnext' : ∀ i, (Tree.ofFlat f).item? list (n + i) = (Tree.ofFlat f₂).item? list i :=
    fun i => item?_ofFlat_eq (hnext i)
  rw [← hfirst']
  unfold itemsTo
  rw [List.range_add, List.filterMap_append, List.filterMap_map]
  simp only [Function.comp_def, hnext']

/-- A nested record has the items of all positions, if all keys that begin with the name of the list go on
with one of these. -/
theorem items?_nest (hname : ∀ k ∈ f.keys, ∀ s rest, k.segments = s :: rest → s.name = list →
      s = .field list)
    (hindex : ∀ k ∈ f.keys, ∀ rest, k.segments = .field list :: rest →
      ∃ i rest', i < n ∧ rest = .index i :: rest') :
    f.nest.items? list = some (f.itemsTo list n) := by
  have hmem : ∀ path v, Tree.find? path (Tree.ofFlat f) = some v → ⟨path⟩ ∈ f.keys :=
    fun path v hv => SortedMap.mem_keys_of_get? (Tree.find?_ofFlat_iff.1 hv).2.1
  have hproper := Tree.proper_ofFlat f
  refine Tree.items?_toRecord hproper (fun c hc heq => ?_) fun rest v hv =>
    hindex _ (hmem _ v hv) rest rfl
  -- A child of the root that has the name of the list leads to some key, which says what segment it is.
  obtain ⟨hne, hproper'⟩ := hproper.of_mem_children hc
  obtain ⟨path, v, hv⟩ := hproper'.exists_find? hne
  have hfind : Tree.find? (c.1 :: path) (Tree.ofFlat f) = some v := by
    rw [Tree.find?, (Ascending.get?_eq_some_iff hproper.sorted_children).2 hc, Option.bind_some, hv]
  exact hname _ (hmem _ v hfind) c.1 path rfl heq

end FlatValues

end FlatRecord
