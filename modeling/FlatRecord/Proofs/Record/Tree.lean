import FlatRecord.Proofs.Key
import FlatRecord.Proofs.SortedMap
import FlatRecord.Record.Nested

/-!
# The tree of a flat record

`Tree.find?` looks up the value at the end of a path, and a `Proper` tree, one without branches that
lead nowhere, is determined by what is found in it (`ext_find?`). Placing a value puts it at the end
of its path and takes away what lies in its way, above and below, and nothing else (`find?_insert`).

`find?_ofFlat_iff` says what a whole pass over a flat record leaves: the value of every key that is
not the beginning of a longer key. It rests on the order of the keys. A value that is placed is
taken away again only by one with a longer key, and keys never get shorter, so at any time the tree
holds the keys placed so far of which none is the beginning of another.
-/

namespace FlatRecord.Tree

/-! ## Looking up -/

/-- The value at the end of a path. -/
def find? : List Segment → Tree → Option Json
  | [], leaf value => some value
  | [], branch _ => none
  | s :: path, t => (Ascending.get? s t.children).bind (find? path)

/-- The children of every branch ascend, and no branch below another is without children. -/
inductive Proper : Tree → Prop
  /-- A value has nothing below it. -/
  | leaf (value : Json) : Proper (leaf value)
  /-- A branch is proper when its children are. -/
  | branch {children : List (Segment × Tree)} (sorted : Ascending.Sorted children)
      (filled : ∀ c ∈ children, c.2 ≠ branch []) (proper : ∀ c ∈ children, Proper c.2) :
      Proper (branch children)

/-- The tree without values is proper. -/
theorem Proper.empty : (Tree.branch []).Proper := .branch .nil nofun nofun

/-- One more child in front of the children of a proper branch. -/
theorem Proper.cons {s : Segment} {t : Tree} {rest : List (Segment × Tree)}
    (sorted : Ascending.Sorted ((s, t) :: rest)) (hne : t ≠ Tree.branch []) (h : t.Proper)
    (hrest : (Tree.branch rest).Proper) : (Tree.branch ((s, t) :: rest)).Proper := by
  cases hrest with
  | branch _ filled proper =>
    exact .branch sorted (List.forall_mem_cons.2 ⟨hne, filled⟩) (List.forall_mem_cons.2 ⟨h, proper⟩)

/-- The children of a proper tree ascend. -/
theorem Proper.sorted_children {t : Tree} (h : t.Proper) : Ascending.Sorted t.children := by
  cases h with
  | leaf => exact .nil
  | branch sorted => exact sorted

/-- The children of a proper tree are proper, and none of them is empty. -/
theorem Proper.of_mem_children {t : Tree} (h : t.Proper) {c : Segment × Tree}
    (hc : c ∈ t.children) : c.2 ≠ Tree.branch [] ∧ c.2.Proper := by
  cases h with
  | leaf => cases hc
  | branch _ filled proper => exact ⟨filled c hc, proper c hc⟩

/-- The child under a segment is proper and not without children. -/
theorem Proper.of_get?_children {t c : Tree} (h : t.Proper) {s : Segment}
    (hc : Ascending.get? s t.children = some c) : c ≠ Tree.branch [] ∧ c.Proper :=
  h.of_mem_children ((Ascending.get?_eq_some_iff h.sorted_children).1 hc)

/-- What is found below a child is found in the tree, on a path through the child. -/
theorem Proper.find?_of_mem_children {t : Tree} (h : t.Proper) {c : Segment × Tree}
    (hc : c ∈ t.children) {path : List Segment} {v : Json} (hv : find? path c.2 = some v) :
    find? (c.1 :: path) t = some v := by
  have hget : Ascending.get? c.1 t.children = some c.2 :=
    (Ascending.get?_eq_some_iff h.sorted_children).2 hc
  rw [find?, hget, Option.bind_some, hv]

/-- Nothing is found in a branch without children. -/
@[simp] theorem find?_branch_nil (path : List Segment) : find? path (branch []) = none := by
  cases path <;> rfl

/-- A value is found nowhere below itself. -/
theorem find?_leaf (value : Json) (path : List Segment) :
    find? path (leaf value) = if path = [] then some value else none := by
  cases path <;> rfl

/-- A leaf has its value at the end of the empty path, and nothing elsewhere. -/
theorem find?_leaf_eq_some_iff {value v : Json} {path : List Segment} :
    find? path (leaf value) = some v ↔ path = [] ∧ v = value := by
  rw [find?_leaf]
  by_cases hpath : path = []
  · rw [if_pos hpath, Option.some.injEq, and_iff_right hpath, eq_comm]
  · rw [if_neg hpath]
    exact ⟨nofun, fun h => absurd h.1 hpath⟩

/-- What is found in a branch is below its first child or in the other ones. -/
theorem find?_branch_cons_iff {s : Segment} {t : Tree} {rest : List (Segment × Tree)}
    (h : Ascending.Sorted ((s, t) :: rest)) {path : List Segment} {v : Json} :
    find? path (branch ((s, t) :: rest)) = some v ↔
      (∃ tail, path = s :: tail ∧ find? tail t = some v) ∨ find? path (branch rest) = some v := by
  cases path with
  -- A branch is no value.
  | nil => simp [find?]
  | cons s' tail =>
    rw [find?, find?, children, children, Ascending.get?]
    by_cases hs : compare s' s = .eq
    · have heq := Std.LawfulEqCmp.eq_of_compare hs
      subst heq
      -- The other children have greater segments, so the path goes through the first one only.
      have hrest : Ascending.get? s' rest = none :=
        Ascending.get?_eq_none_of_lt fun c hc => (List.pairwise_cons.1 h).1 c hc
      simp [hrest]
    · -- Under another segment nothing is below the first child.
      have hne : s' ≠ s := fun e => hs (by rw [e]; exact Std.ReflCmp.compare_self)
      simp [hs, hne]

/-- Nothing is found below a place where a value is. -/
theorem find?_append_of_find?_eq_some {path rest : List Segment} {t : Tree} {v : Json}
    (h : find? path t = some v) (hrest : rest ≠ []) : find? (path ++ rest) t = none := by
  induction path generalizing t with
  | nil =>
    cases t with
    | leaf value => rw [List.nil_append, find?_leaf, if_neg hrest]
    | branch children => cases h
  | cons s path ih =>
    obtain ⟨c, hc, hfind⟩ := Option.bind_eq_some_iff.1 h
    rw [List.cons_append, find?, hc]
    exact ih hfind

/-- A proper tree other than the empty branch holds a value. -/
theorem Proper.exists_find? {t : Tree} (h : t.Proper) (hne : t ≠ Tree.branch []) :
    ∃ path v, find? path t = some v := by
  induction h with
  | leaf value => exact ⟨[], value, rfl⟩
  | @branch children sorted filled proper ih =>
    cases children with
    | nil => exact absurd rfl hne
    | cons c rest =>
      obtain ⟨path, v, hv⟩ := ih c List.mem_cons_self (filled c List.mem_cons_self)
      refine ⟨c.1 :: path, v, ?_⟩
      have hc : Ascending.get? c.1 (Tree.branch (c :: rest)).children = some c.2 :=
        (Ascending.get?_eq_some_iff sorted).2 List.mem_cons_self
      rw [find?, hc, Option.bind_some, hv]

/-- Where a tree has no child, a proper tree in which the same values are found has none. -/
theorem Proper.get?_children_eq_none {t u : Tree} (hu : u.Proper)
    (h : ∀ path, find? path t = find? path u) {s : Segment}
    (hs : Ascending.get? s t.children = none) : Ascending.get? s u.children = none := by
  -- A child of a proper tree holds a value, and in the other tree no value is found there.
  cases hc : Ascending.get? s u.children with
  | none => rfl
  | some c =>
    obtain ⟨hne, hproper⟩ := hu.of_get?_children hc
    obtain ⟨path, v, hv⟩ := hproper.exists_find? hne
    have hpath := h (s :: path)
    rw [find?, find?, hs, hc, Option.bind_none, Option.bind_some, hv] at hpath
    cases hpath

/-- A proper tree is determined by the values found in it. -/
theorem ext_find? {t u : Tree} (ht : t.Proper) (hu : u.Proper)
    (h : ∀ path, find? path t = find? path u) : t = u := by
  induction ht generalizing u with
  | leaf value =>
    cases u with
    | leaf value' =>
      have hvalue := h []
      rw [find?, find?, Option.some.injEq] at hvalue
      rw [hvalue]
    | branch children => cases h []
  | @branch children sorted filled proper ih =>
    cases u with
    | leaf value => cases h []
    | branch children' =>
      -- It is enough that the same child, or none, stands under every segment.
      refine congrArg Tree.branch (Ascending.eq_of_get?_eq sorted hu.sorted_children fun s => ?_)
      cases hc : Ascending.get? s children with
      | none => exact (hu.get?_children_eq_none h hc).symm
      | some c =>
        cases hc' : Ascending.get? s children' with
        | none =>
          -- Nothing is found below a missing child, but something is below every child.
          have hnone := (Proper.branch sorted filled proper).get?_children_eq_none
            (fun path => (h path).symm) hc'
          cases hc.symm.trans hnone
        | some c' =>
          have hmem : (s, c) ∈ children := (Ascending.get?_eq_some_iff sorted).1 hc
          have hproper : c'.Proper := (hu.of_get?_children hc').2
          refine congrArg some (ih (s, c) hmem hproper fun path => ?_)
          have hpath := h (s :: path)
          have hfirst : Ascending.get? s (Tree.branch children).children = some c := hc
          have hsecond : Ascending.get? s (Tree.branch children').children = some c' := hc'
          rwa [find?, find?, hfirst, hsecond] at hpath

/-- The same of trees that may be there or not. -/
theorem ext_find?_option {a b : Option Tree} (ha : ∀ t, a = some t → t ≠ branch [] ∧ t.Proper)
    (hb : ∀ t, b = some t → t ≠ branch [] ∧ t.Proper)
    (h : ∀ path, a.bind (find? path) = b.bind (find? path)) : a = b := by
  cases a with
  | none =>
    cases b with
    | none => rfl
    | some u =>
      obtain ⟨hne, hproper⟩ := hb u rfl
      -- Something is found in the tree that is there, and nothing where there is none.
      obtain ⟨path, v, hv⟩ := hproper.exists_find? hne
      exact absurd ((h path).trans hv) nofun
  | some t =>
    obtain ⟨hne, hproper⟩ := ha t rfl
    cases b with
    | none =>
      obtain ⟨path, v, hv⟩ := hproper.exists_find? hne
      exact absurd ((h path).symm.trans hv) nofun
    | some u => exact congrArg some (ext_find? hproper (hb u rfl).2 h)

/-! ## Placing a value -/

/-- A tree is proper after a value was placed in it. -/
theorem Proper.insert {t : Tree} (h : t.Proper) (value : Json) (path : List Segment) :
    (t.insert value path).Proper ∧ t.insert value path ≠ Tree.branch [] := by
  induction path generalizing t with
  | nil => exact ⟨.leaf value, nofun⟩
  | cons s path ih =>
    -- The value is placed in the child under the first segment, or in a new one.
    have hchild : ((Ascending.get? s t.children).getD (Tree.branch [])).Proper := by
      cases hc : Ascending.get? s t.children with
      | none => exact .empty
      | some c => exact (h.of_get?_children hc).2
    have hsorted := Ascending.sorted_alter (k := s)
      (f := fun child => some (Tree.insert value path (child.getD (Tree.branch []))))
      h.sorted_children
    have hmem : ∀ c ∈ (t.insert value (s :: path)).children, c.2 ≠ Tree.branch [] ∧ c.2.Proper := by
      rintro ⟨s', c⟩ hc
      rw [Tree.insert, children, ← Ascending.get?_eq_some_iff hsorted,
        Ascending.get?_alter h.sorted_children] at hc
      -- A child under another segment is one from before.
      split at hc
      · cases hc
        exact (ih hchild).symm
      · exact h.of_get?_children hc
    -- The new value has a child above it, so the branch is not the empty one.
    refine ⟨.branch hsorted (fun c hc => (hmem c hc).1) (fun c hc => (hmem c hc).2), ?_⟩
    intro he
    have hs : Ascending.get? s (t.insert value (s :: path)).children = none := by rw [he]; rfl
    rw [Tree.insert, children, Ascending.get?_alter h.sorted_children,
      if_pos Std.ReflCmp.compare_self] at hs
    cases hs

/-- Placing a value puts it at the end of its path, takes away what is above and below, and leaves
all else as it was. -/
theorem find?_insert {t : Tree} (h : t.Proper) (value : Json) (path q : List Segment) :
    find? q (t.insert value path) =
      if q = path then some value else if path <+: q ∨ q <+: path then none else find? q t := by
  induction path generalizing t q with
  | nil =>
    rw [Tree.insert, find?_leaf]
    simp
  | cons s path ih =>
    cases q with
    | nil => simp [Tree.insert, find?]
    | cons s' q =>
      rw [Tree.insert, find?, children, Ascending.get?_alter h.sorted_children]
      by_cases hs : s' = s
      · -- The path goes below the child in which the value was placed.
        subst hs
        rw [if_pos Std.ReflCmp.compare_self, Option.bind_some]
        cases hc : Ascending.get? s' t.children with
        | none =>
          rw [Option.getD_none, ih (.empty)]
          simp [find?, hc]
        | some c =>
          rw [Option.getD_some, ih (h.of_get?_children hc).2]
          simp [find?, hc]
      · -- The path goes below another child, which is as it was.
        have hne : compare s' s ≠ .eq := fun e => hs (Std.LawfulEqCmp.eq_of_compare e)
        rw [if_neg hne, find?]
        simp [hs, Ne.symm hs]

/-! ## Placing all values -/

/-- The path is a key of the entries, with the value, and no other key goes on from it. -/
def Ends (entries : List (Key × Json)) (path : List Segment) (v : Json) : Prop :=
  path ≠ [] ∧ (⟨path⟩, v) ∈ entries ∧ ∀ e ∈ entries, path <+: e.1.segments → e.1.segments = path

section Concat

variable {done : List (Key × Json)} {key : Key} {value v : Json} {path : List Segment}

/-- A key that comes after the others is not gone on from. -/
theorem ends_concat_self_iff (hnil : key.segments ≠ []) (hlt : ∀ d ∈ done, compare d.1 key = .lt) :
    Ends (done ++ [(key, value)]) key.segments v ↔ value = v := by
  constructor
  · rintro ⟨-, hmem, -⟩
    -- The pair cannot be an earlier one, as its key is that of the new pair.
    rcases List.mem_append.1 hmem with hmem | hmem
    · exact absurd rfl (Ascending.ne_of_lt (hlt _ hmem))
    · cases List.mem_singleton.1 hmem
      rfl
  · rintro rfl
    refine ⟨hnil, List.mem_append_right _ List.mem_cons_self, fun e he hbegins => ?_⟩
    rcases List.mem_append.1 he with he | he
    · -- No key placed so far is longer than the new one.
      have hle : e.1.segments.length ≤ key.segments.length := Key.length_le_of_lt (hlt e he)
      exact (hbegins.eq_of_length_le hle).symm
    · rw [List.mem_singleton.1 he]

/-- Another path that goes on from the last key, or from which that key goes on, is none of the keys
or is gone on from. -/
theorem not_ends_concat (hne : path ≠ key.segments) (hlt : ∀ d ∈ done, compare d.1 key = .lt)
    (hway : key.segments <+: path ∨ path <+: key.segments) :
    ¬ Ends (done ++ [(key, value)]) path v := by
  rintro ⟨-, hmem, hall⟩
  rcases hway with hway | hway
  · rcases List.mem_append.1 hmem with hmem | hmem
    · have hle : path.length ≤ key.segments.length := Key.length_le_of_lt (hlt _ hmem)
      exact hne (hway.eq_of_length_le hle).symm
    · cases List.mem_singleton.1 hmem
      exact hne rfl
  · have hself : (key, value) ∈ done ++ [(key, value)] :=
      List.mem_append_right _ List.mem_cons_self
    exact hne (hall (key, value) hself hway).symm

/-- One more key changes nothing about paths from which it does not go on. -/
theorem ends_concat_iff_of_not (hne : path ≠ key.segments) (hway : ¬ path <+: key.segments) :
    Ends (done ++ [(key, value)]) path v ↔ Ends done path v := by
  have hkey : (⟨path⟩ : Key) ≠ key := fun e => hne (by rw [← e])
  unfold Ends
  simp only [List.mem_append, List.mem_singleton, Prod.mk.injEq, hkey, false_and, or_false]
  refine and_congr_right fun _ => and_congr_right fun _ =>
    ⟨fun hall e he => hall e (.inl he), fun hall e he hbegins => ?_⟩
  rcases he with he | rfl
  · exact hall e he hbegins
  · exact absurd hbegins hway

end Concat

/-- What a pass over entries in key order has made of the empty tree: a proper tree in which the
value of a key is found when no later key goes on from it. -/
def Placed (done : List (Key × Json)) (t : Tree) : Prop :=
  t.Proper ∧ ∀ path v, find? path t = some v ↔ Ends done path v

/-- Placing the value of a key that comes after all keys placed so far. -/
theorem Placed.place {done : List (Key × Json)} {t : Tree} (h : Placed done t) {key : Key}
    (value : Json) (hlt : ∀ d ∈ done, compare d.1 key = .lt) :
    Placed (done ++ [(key, value)]) (t.place key value) := by
  obtain ⟨hproper, hfind⟩ := h
  unfold Tree.place
  by_cases hroot : key.isRoot = true
  · -- The root has no place: nothing changes, and no path is the beginning of the empty one.
    have hkey : key.segments = [] := List.isEmpty_iff.1 hroot
    rw [if_pos hroot]
    refine ⟨hproper, fun path v => (hfind path v).trans ?_⟩
    by_cases hnil : path = []
    · exact ⟨fun hends => absurd hnil hends.1, fun hends => absurd hnil hends.1⟩
    · refine (ends_concat_iff_of_not ?_ ?_).symm
      · rw [hkey]
        exact hnil
      · rw [hkey, List.prefix_nil]
        exact hnil
  · have hnil : key.segments ≠ [] := fun e => hroot (List.isEmpty_iff.2 e)
    rw [if_neg hroot]
    refine ⟨(hproper.insert value _).1, fun path v => ?_⟩
    rw [find?_insert hproper]
    -- A path is that of the new value, or in its way, or has nothing to do with it.
    by_cases hpath : path = key.segments
    · rw [if_pos hpath, hpath, ends_concat_self_iff hnil hlt, Option.some.injEq]
    · rw [if_neg hpath]
      by_cases hway : key.segments <+: path ∨ path <+: key.segments
      · rw [if_pos hway]
        exact ⟨nofun, fun hends => absurd hends (not_ends_concat hpath hlt hway)⟩
      · rw [if_neg hway, hfind path v, ends_concat_iff_of_not hpath fun h => hway (.inr h)]

/-- The tree of a flat record is proper. -/
theorem placed_ofFlat (f : FlatValues) : Placed f.entries (ofFlat f) := by
  unfold ofFlat
  refine foldl_induction ⟨.empty, fun path v => ?_⟩ ?_
  · rw [find?_branch_nil]
    exact ⟨nofun, fun hends => absurd hends.2.1 List.not_mem_nil⟩
  · intro done e rest t hl ht
    exact ht.place e.2 fun d hd => SortedMap.lt_of_append hl hd

/-- The tree of a flat record is proper. -/
theorem proper_ofFlat (f : FlatValues) : (ofFlat f).Proper := (placed_ofFlat f).1

/-- In the tree of a flat record the value of a key is found when no longer key goes on from it. -/
theorem find?_ofFlat_iff {f : FlatValues} {path : List Segment} {v : Json} :
    find? path (ofFlat f) = some v ↔ path ≠ [] ∧ f.get? ⟨path⟩ = some v ∧
      ∀ rest, rest ≠ [] → f.get? ⟨path ++ rest⟩ = none := by
  rw [(placed_ofFlat f).2, SortedMap.get?_eq_some_iff, Ends]
  refine and_congr_right fun _ => and_congr_right fun _ => ⟨fun hall rest hrest => ?_, ?_⟩
  · cases hget : f.get? ⟨path ++ rest⟩ with
    -- A longer path with a value would be an entry whose key goes on.
    | none => rfl
    | some w =>
      have hmem := (SortedMap.get?_eq_some_iff f).1 hget
      have hself : path ++ rest = path := hall _ hmem (List.prefix_append path rest)
      exact absurd (List.append_right_eq_self.1 hself) hrest
  · rintro hall ⟨k, w⟩ he ⟨rest, hrest⟩
    by_cases hnil : rest = []
    · rw [← hrest, hnil, List.append_nil]
    · -- An entry whose key goes on from the path would be found under the longer key.
      have hget := (SortedMap.get?_eq_some_iff f).2 he
      have hk : k = ⟨path ++ rest⟩ := by rw [hrest]
      rw [hk, hall rest hnil] at hget
      cases hget

/-- The tree of a flat record is no value. -/
theorem find?_nil_ofFlat (f : FlatValues) : find? [] (ofFlat f) = none := by
  cases h : find? [] (ofFlat f) with
  | none => rfl
  | some v => exact absurd rfl (find?_ofFlat_iff.1 h).1

/-! ## The value of a tree -/

/-- Each value stands under the segment of its child. -/
theorem childValues_eq_map (children : List (Segment × Tree)) :
    childValues children = children.map fun c => (c.1, toJson c.2) := by
  induction children with
  | nil => rfl
  | cons c rest ih => rw [childValues, ih, List.map_cons]

/-- Children at positions make a list of their values. -/
theorem toJson_branch_of_isIndex {children : List (Segment × Tree)} (hne : children ≠ [])
    (h : ∀ c ∈ children, c.1.isIndex = true) :
    toJson (branch children) = .arr (children.map fun c => toJson c.2) := by
  have hindex : (childValues children).all (·.1.isIndex) = true := by
    rw [childValues_eq_map, List.all_map]
    exact List.all_eq_true.2 h
  have hempty : (childValues children).isEmpty = false := by
    rw [childValues_eq_map, List.isEmpty_map]
    exact List.isEmpty_eq_false_iff.2 hne
  rw [toJson, assemble, hindex, hempty, childValues_eq_map, List.map_map]
  rfl

/-- Children of which none is at a position make an object. -/
theorem toJson_branch_of_not_isIndex {children : List (Segment × Tree)}
    (h : ∀ c ∈ children, c.1.isIndex = false) :
    toJson (branch children) = .ofRecord (branch children).toRecord := by
  cases children with
  | nil => rfl
  | cons c rest =>
    have hindex : (childValues (c :: rest)).all (·.1.isIndex) = false := by
      rw [childValues, List.all_cons, h c List.mem_cons_self, Bool.false_and]
    rw [toJson, assemble, hindex, Bool.and_false]
    rfl

/-- The values of the record of a tree are those of children of the same names. -/
theorem exists_of_get?_toRecord {t : Tree} {name : String} {v : Json}
    (h : t.toRecord.get? name = some v) : ∃ c ∈ t.children, c.1.name = name ∧ v = toJson c.2 := by
  have hmem : (name, v) ∈ (childValues t.children).map fun c => (c.1.name, c.2) :=
    SortedMap.mem_of_get?_ofList h
  rw [childValues_eq_map, List.map_map] at hmem
  obtain ⟨c, hc, heq⟩ := List.mem_map.1 hmem
  exact ⟨c, hc, (Prod.mk.inj heq).1, (Prod.mk.inj heq).2.symm⟩

/-- The record of a tree has a value under the name of each child. -/
theorem exists_get?_toRecord {t : Tree} {c : Segment × Tree} (hc : c ∈ t.children) :
    ∃ v, t.toRecord.get? c.1.name = some v := by
  refine SortedMap.exists_get?_insertMany ∅ (.inl ?_)
  rw [childValues_eq_map, List.map_map, List.map_map]
  exact List.mem_map.2 ⟨c, hc, rfl⟩

/-- The record of a tree has the value of a child under its name, if no other child has that name. -/
theorem get?_toRecord {t : Tree} (ht : Ascending.Sorted t.children) {s : Segment}
    (huniq : ∀ c ∈ t.children, c.1.name = s.name → c.1 = s) :
    t.toRecord.get? s.name = (Ascending.get? s t.children).map toJson := by
  -- The pairs of which the record is made, by the children from which they come.
  have hmem : ∀ v, (s.name, v) ∈ (childValues t.children).map (fun c => (c.1.name, c.2)) ↔
      ∃ c, (s, c) ∈ t.children ∧ toJson c = v := by
    intro v
    rw [childValues_eq_map, List.map_map, List.mem_map]
    constructor
    · rintro ⟨c, hc, heq⟩
      obtain ⟨hname, hvalue⟩ := Prod.mk.inj heq
      have hs : c.1 = s := huniq c hc hname
      exact ⟨c.2, by rw [← hs]; exact hc, hvalue⟩
    · rintro ⟨c, hc, rfl⟩
      exact ⟨(s, c), hc, rfl⟩
  unfold toRecord namedFields
  cases hget : Ascending.get? s t.children with
  -- No child has the segment, so none has the name.
  | none =>
    cases hvalue : (SortedMap.ofList ((childValues t.children).map
        fun c => (c.1.name, c.2))).get? s.name with
    | none => rfl
    | some v =>
      obtain ⟨c, hc, -⟩ := (hmem v).1 (SortedMap.mem_of_get?_ofList hvalue)
      exact absurd hc (Ascending.get?_eq_none_iff.1 hget c)
  | some c =>
    -- The child is the only one of that name.
    have hc : (s, c) ∈ t.children := (Ascending.get?_eq_some_iff ht).1 hget
    refine SortedMap.get?_ofList_of_forall_eq ((hmem _).2 ⟨c, hc, rfl⟩) fun w hw => ?_
    obtain ⟨c', hc', rfl⟩ := (hmem w).1 hw
    rw [Ascending.eq_of_mem_of_mem ht hc hc']

end FlatRecord.Tree
