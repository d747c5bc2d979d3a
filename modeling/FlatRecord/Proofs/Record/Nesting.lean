import FlatRecord.Proofs.Json.Path
import FlatRecord.Proofs.Record.Tree

/-!
# Where nesting puts a value

In a tree whose paths lead through objects and lists in turn (`Tree.Fits`) a branch is a list or an
object by its place, and no two of its children share a name. So each value of the tree is found in
the nested record: `at?_toJson_settled` says where. A list closes the gaps between its positions, so
on the path to a value each position is lowered to the number of children before it.

`FlatValues.at?_nest` is the case in which nothing moves: a value is found under its own key when no
longer key goes on from it and every earlier position of each list on the way has an entry.
-/

namespace FlatRecord

namespace Ascending

universe u v

variable {α : Type u} {β : Type v} [Ord α]

/-- The number of entries before a key. -/
def rank (k : α) : List (α × β) → Nat
  | [] => 0
  | (k', _) :: rest => if compare k' k = .lt then rank k rest + 1 else 0

/-- An entry stands after all that come before its key. -/
theorem getElem?_rank [Std.TransOrd α] [Std.LawfulEqOrd α] {k : α} {v : β} {l : List (α × β)}
    (h : Sorted l) (hmem : (k, v) ∈ l) : l[rank k l]? = some (k, v) := by
  induction l with
  | nil => cases hmem
  | cons e rest ih =>
    obtain ⟨hfirst, hrest⟩ := List.pairwise_cons.1 h
    rcases List.mem_cons.1 hmem with rfl | hmem
    · have heq : compare k k = .eq := Std.ReflCmp.compare_self
      have hself : compare k k ≠ .lt := by
        rw [heq]
        decide
      rw [rank, if_neg hself]
      rfl
    · rw [rank, if_pos (hfirst _ hmem), List.getElem?_cons_succ]
      exact ih hrest hmem

/-- Among positions from a first one on, without a gap below `i`, the number of those before `i` tells
how far `i` is from the first one. -/
theorem add_rank_index {l : List (Segment × β)} (h : Sorted l) {first i : Nat} (hfirst : first ≤ i)
    (hindex : ∀ e ∈ l, ∃ j, first ≤ j ∧ e.1 = .index j)
    (hfull : ∀ j, first ≤ j → j < i → ∃ v, (Segment.index j, v) ∈ l) :
    first + rank (.index i) l = i := by
  induction l generalizing first with
  | nil =>
    by_cases hlt : first < i
    · -- The first position is not there, but it would have to be.
      obtain ⟨v, hv⟩ := hfull first (Nat.le_refl first) hlt
      cases hv
    · rw [rank]
      omega
  | cons e rest ih =>
    obtain ⟨s, v⟩ := e
    obtain ⟨hbefore, hrest⟩ := List.pairwise_cons.1 h
    obtain ⟨m, hm, hs⟩ := hindex (s, v) List.mem_cons_self
    have hs : s = .index m := hs
    subst hs
    -- The order of positions is that of the numbers.
    have hcompare : ∀ a b, compare (Segment.index a) (Segment.index b) = compare a b := fun _ _ => rfl
    have hlater : ∀ j w, (Segment.index j, w) ∈ rest → m < j := by
      intro j w hw
      have hlt : compare (Segment.index m) (Segment.index j) = .lt := hbefore _ hw
      rwa [hcompare, Nat.compare_eq_lt] at hlt
    rw [rank, hcompare]
    by_cases hlt : first < i
    · -- Then the first position is there, and it can only be that of the first entry.
      have heq : m = first := by
        obtain ⟨w, hw⟩ := hfull first (Nat.le_refl first) hlt
        rcases List.mem_cons.1 hw with hw | hw
        · exact (Segment.index.inj (Prod.mk.inj hw).1).symm
        · have hgreater := hlater first w hw
          omega
      subst heq
      have hcount : (m + 1) + rank (.index i) rest = i := by
        refine ih hrest hlt (fun e he => ?_) (fun j hj hji => ?_)
        · obtain ⟨j, -, hj⟩ := hindex e (List.mem_cons_of_mem _ he)
          exact ⟨j, hlater j e.2 (by rw [← hj]; exact he), hj⟩
        · obtain ⟨w, hw⟩ := hfull j (by omega) hji
          rcases List.mem_cons.1 hw with hw | hw
          · have heq := Segment.index.inj (Prod.mk.inj hw).1
            omega
          · exact ⟨w, hw⟩
      rw [if_pos (Nat.compare_eq_lt.2 hlt)]
      omega
    · -- The first entry is at `i` or behind it, and so are the others.
      have hge : compare m i ≠ .lt := fun hc => by
        rw [Nat.compare_eq_lt] at hc
        omega
      rw [if_neg hge]
      omega

end Ascending

namespace Tree

/-! ## Trees of places -/

/-- Every path to a value leads through objects and lists in turn, from the given place on. -/
def Fits (named : String → Prop) (place : Place) (t : Tree) : Prop :=
  ∀ path v, find? path t = some v → Alternates named place path

section Fits

variable {named : String → Prop} {place : Place} {t c : Tree} {s : Segment}

/-- A child of a proper tree stands under a segment that fits, and its own paths go on from there. -/
theorem Fits.child (h : t.Fits named place) (ht : t.Proper)
    (hc : Ascending.get? s t.children = some c) :
    s.FitsIn named place ∧ c.Fits named place.next := by
  have hpath : ∀ path v, find? path c = some v → Alternates named place (s :: path) := by
    intro path v hv
    refine h (s :: path) v ?_
    rw [find?, hc, Option.bind_some, hv]
  obtain ⟨hne, hproper⟩ := ht.of_get?_children hc
  -- There is a value below the child, so there is a path through its segment.
  obtain ⟨path, v, hv⟩ := hproper.exists_find? hne
  exact ⟨(hpath path v hv).1, fun path v hv => (hpath path v hv).2.2⟩

/-- A child of a tree that fits has a segment that fits, and fits the next place itself. -/
theorem Fits.of_mem_children (h : t.Fits named place) (ht : t.Proper) {c : Segment × Tree}
    (hc : c ∈ t.children) : c.1.FitsIn named place ∧ c.2.Fits named place.next :=
  h.child ht ((Ascending.get?_eq_some_iff ht.sorted_children).2 hc)

/-- A branch in the place of a list makes a list. -/
theorem Fits.toJson_list {children : List (Segment × Tree)}
    (h : (branch children).Fits named .list) (ht : (branch children).Proper) (hne : children ≠ []) :
    toJson (branch children) = .arr (children.map fun c => toJson c.2) := by
  refine toJson_branch_of_isIndex hne fun c hc => ?_
  obtain ⟨i, hi⟩ := (h.of_mem_children ht hc).1.exists_index
  rw [hi]
  rfl

/-- A branch in the place of an object makes an object. -/
theorem Fits.toJson_object {children : List (Segment × Tree)}
    (h : (branch children).Fits named .object) (ht : (branch children).Proper) :
    toJson (branch children) = .ofRecord (branch children).toRecord :=
  toJson_branch_of_not_isIndex fun _ hc => (h.of_mem_children ht hc).1.isIndex_eq_false

/-- In an object without fields that have the names of slots each child has its value under its
name. -/
theorem Fits.get?_toRecord (h : t.Fits Control.Unused .object) (ht : t.Proper)
    (hc : Ascending.get? s t.children = some c) : t.toRecord.get? s.name = some c.toJson := by
  have hs : s.FitsIn Control.Unused .object := (h.child ht hc).1
  rw [Tree.get?_toRecord ht.sorted_children fun c' hc' hname =>
    Segment.eq_of_name_eq (h.of_mem_children ht hc').1 hs hname, hc, Option.map_some]

end Fits

/-! ## Paths after the gaps are closed -/

variable {named : String → Prop}

/-- The segment under which the value of a child is found: a position is lowered to the number of
children before it. -/
def settle (s : Segment) (children : List (Segment × Tree)) : Segment :=
  match s with
  | .index _ => .index (Ascending.rank s children)
  | s => s

/-- The path on which a value of the tree is found in the value of the tree. -/
def settled : List Segment → Tree → List Segment
  | [], _ => []
  | s :: path, t =>
    settle s t.children :: settled path ((Ascending.get? s t.children).getD (branch []))

/-- Every value of a tree is found in the value of the tree. -/
theorem at?_toJson_settled {path : List Segment} {t : Tree} {place : Place} {v : Json}
    (ht : t.Proper) (hfits : t.Fits Control.Unused place) (hfind : find? path t = some v) :
    (toJson t).at? (settled path t) = some v := by
  induction path generalizing t place with
  | nil =>
    -- The path is at its end, so the value lies here.
    cases t with
    | leaf value => exact hfind
    | branch children => cases hfind
  | cons s path ih =>
    obtain ⟨c, hc, hbelow⟩ := Option.bind_eq_some_iff.1 hfind
    obtain ⟨hs, hchild⟩ := hfits.child ht hc
    have hvalue : (toJson c).at? (settled path c) = some v :=
      ih (ht.of_get?_children hc).2 hchild hbelow
    rw [settled, hc, Option.getD_some]
    cases t with
    | leaf value => cases hc
    | branch children =>
      cases place with
      | list =>
        -- The child is an item of the list, after those with lesser positions.
        have hmem : (s, c) ∈ children := (Ascending.get?_eq_some_iff ht.sorted_children).1 hc
        have hrank : children[Ascending.rank s children]? = some (s, c) :=
          Ascending.getElem?_rank ht.sorted_children hmem
        have hitem : (children.map fun c => toJson c.2)[Ascending.rank s children]? =
            some (toJson c) := by
          rw [List.getElem?_map, hrank, Option.map_some]
        obtain ⟨i, rfl⟩ := hs.exists_index
        rw [hfits.toJson_list ht (List.ne_nil_of_mem hmem)]
        show Json.at? (.index (Ascending.rank (.index i) children) :: _) _ = _
        rw [Json.at?_index, hitem, Option.bind_some, hvalue]
      | object =>
        -- In an object the child keeps its name.
        have hsettle : settle s children = s := by
          cases s with
          | index i => exact hs.elim
          | _ => rfl
        have hfield : Ascending.get? s.name (branch children).toRecord.entries = some (toJson c) :=
          hfits.get?_toRecord ht hc
        rw [hfits.toJson_object ht, Json.ofRecord]
        show Json.at? (settle s children :: _) _ = _
        rw [hsettle, Json.at?_name hs.isIndex_eq_false, hfield, Option.bind_some, hvalue]

/-- Nothing moves on a path when every position before one on it leads to a value. -/
theorem settled_eq_self {path : List Segment} {t : Tree} {place : Place} {v : Json}
    (ht : t.Proper) (hfits : t.Fits named place) (hfind : find? path t = some v)
    (hfull : ∀ before i after, path = before ++ .index i :: after → ∀ j < i,
      ∃ rest w, find? (before ++ .index j :: rest) t = some w) : settled path t = path := by
  induction path generalizing t place with
  | nil => rfl
  | cons s path ih =>
    obtain ⟨c, hc, hbelow⟩ := Option.bind_eq_some_iff.1 hfind
    obtain ⟨hs, hchild⟩ := hfits.child ht hc
    -- What holds of all lesser positions on the path holds of those below the child.
    have hpath : settled path c = path := by
      refine ih (ht.of_get?_children hc).2 hchild hbelow fun before i after hsplit j hj => ?_
      obtain ⟨rest, w, hw⟩ := hfull (s :: before) i after (by rw [hsplit, List.cons_append]) j hj
      refine ⟨rest, w, ?_⟩
      rwa [List.cons_append, find?, hc, Option.bind_some] at hw
    rw [settled, hc, Option.getD_some, hpath]
    refine congrArg (· :: path) ?_
    cases s with
    | index i =>
      -- All children are positions, and there is one for every number below this one.
      have hrank : 0 + Ascending.rank (.index i) t.children = i := by
        refine Ascending.add_rank_index ht.sorted_children (Nat.zero_le i) (fun e he => ?_)
          fun j _ hj => ?_
        · cases place with
          | object => exact hs.elim
          | list =>
            obtain ⟨j, hj⟩ := (hfits.of_mem_children ht he).1.exists_index
            exact ⟨j, Nat.zero_le j, hj⟩
        · obtain ⟨rest, w, hw⟩ := hfull [] i path rfl j hj
          obtain ⟨c', hc', -⟩ := Option.bind_eq_some_iff.1 hw
          exact ⟨c', (Ascending.get?_eq_some_iff ht.sorted_children).1 hc'⟩
      rw [Nat.zero_add] at hrank
      exact congrArg Segment.index hrank
    | field name => rfl
    | control slot => rfl

end Tree

/-! ## Flat records -/

namespace FlatValues

variable {f : FlatValues} {key : Key} {v : Json}

/-- No longer key goes on from the key. -/
def Ends (f : FlatValues) (key : Key) : Prop :=
  ∀ rest, rest ≠ [] → f.get? ⟨key.segments ++ rest⟩ = none

/-- From every key goes on one, or the key itself, from which no longer key goes on. -/
theorem exists_ends (hget : f.get? key = some v) :
    ∃ rest w, f.get? ⟨key.segments ++ rest⟩ = some w ∧ f.Ends ⟨key.segments ++ rest⟩ := by
  -- The greatest key that goes on from the given one will do, since no greater key is shorter.
  have hgoesOn : ∀ k w, (f.filter fun k _ => k.startsWith key).get? k = some w ↔
      f.get? k = some w ∧ key.segments <+: k.segments := by
    intro k w
    rw [SortedMap.get?_filter_eq_some_iff, Key.startsWith, List.isPrefixOf_iff_prefix]
  obtain ⟨k, w, hk, hgreatest⟩ :=
    SortedMap.exists_greatest ((hgoesOn key v).2 ⟨hget, List.prefix_refl _⟩)
  obtain ⟨hkget, rest, hrest⟩ := (hgoesOn k w).1 hk
  have hkey : k = ⟨key.segments ++ rest⟩ := by rw [hrest]
  subst hkey
  refine ⟨rest, w, hkget, fun more hmore => ?_⟩
  -- A key that goes on from this one would be greater than it.
  cases hlonger : f.get? ⟨key.segments ++ rest ++ more⟩ with
  | none => rfl
  | some w' =>
    have hbegins : key.segments <+: key.segments ++ rest ++ more :=
      ⟨rest ++ more, (List.append_assoc ..).symm⟩
    rcases hgreatest _ _ ((hgoesOn _ w').2 ⟨hlonger, hbegins⟩) with heq | hlt
    · exact absurd (List.append_right_eq_self.1 (congrArg Key.segments heq)) hmore
    · have hle : (key.segments ++ rest ++ more).length ≤ (key.segments ++ rest).length :=
        Key.length_le_of_lt hlt
      rw [List.length_append] at hle
      exact absurd (List.length_eq_zero_iff.1 (by omega)) hmore

/-- In the tree of a flat record the value of a key is found from which no longer key goes on. -/
theorem Ends.find?_ofFlat (h : f.Ends key) (hne : key.segments ≠ []) (hget : f.get? key = some v) :
    Tree.find? key.segments (Tree.ofFlat f) = some v :=
  Tree.find?_ofFlat_iff.2 ⟨hne, hget, h⟩

/-- The nested record has a value under the name of every field at its top. -/
theorem exists_get?_nest {name : String} (hget : f.get? (Key.root.field name) = some v) :
    ∃ w, f.nest.get? name = some w := by
  obtain ⟨rest, w, hw, hends⟩ := exists_ends hget
  have hfind : Tree.find? (.field name :: rest) (Tree.ofFlat f) = some w :=
    hends.find?_ofFlat (List.cons_ne_nil _ _) hw
  obtain ⟨c, hc, -⟩ := Option.bind_eq_some_iff.1 hfind
  exact Tree.exists_get?_toRecord
    ((Ascending.get?_eq_some_iff (Tree.proper_ofFlat f).sorted_children).1 hc)

/-- The tree of a flat record whose keys lead through objects and lists in turn is one of places. -/
theorem fits_ofFlat_of_alternates {named : String → Prop}
    (hf : ∀ k ∈ f.keys, Alternates named .object k.segments) :
    (Tree.ofFlat f).Fits named .object := by
  intro path w hfind
  have hget : f.get? ⟨path⟩ = some w := (Tree.find?_ofFlat_iff.1 hfind).2.1
  exact hf ⟨path⟩ (SortedMap.mem_keys_of_get? hget)

/-- The tree of a flat record with addresses for keys is one of places. -/
theorem fits_ofFlat (hf : ∀ k ∈ f.keys, k.IsAddress) :
    (Tree.ofFlat f).Fits Control.Unused .object :=
  fits_ofFlat_of_alternates fun k hk => (hf k hk).2

/-- The record of a flat record is the value of its tree, if that is one of places. -/
theorem ofRecord_nest_of_fits {named : String → Prop} (hfits : (Tree.ofFlat f).Fits named .object) :
    Json.ofRecord f.nest = (Tree.ofFlat f).toJson := by
  have hproper := Tree.proper_ofFlat f
  have hroot := Tree.find?_nil_ofFlat f
  unfold nest
  cases ht : Tree.ofFlat f with
  | leaf value =>
    rw [ht] at hroot
    cases hroot
  | branch children =>
    rw [ht] at hproper hfits
    exact (hfits.toJson_object hproper).symm

/-- The record of a flat record is the value of its tree. -/
theorem ofRecord_nest (hf : ∀ k ∈ f.keys, k.IsAddress) :
    Json.ofRecord f.nest = (Tree.ofFlat f).toJson :=
  ofRecord_nest_of_fits (fits_ofFlat hf)

/-- A value is found in the nested record when no longer key goes on from its own. -/
theorem at?_nest_settled (hf : ∀ k ∈ f.keys, k.IsAddress) (hget : f.get? key = some v)
    (hend : f.Ends key) :
    f.nest.at? ⟨Tree.settled key.segments (Tree.ofFlat f)⟩ = some v := by
  have hmem : key ∈ f.keys := SortedMap.mem_keys_of_get? hget
  unfold Record.at?
  rw [ofRecord_nest hf]
  exact Tree.at?_toJson_settled (Tree.proper_ofFlat f) (fits_ofFlat hf)
    (hend.find?_ofFlat (hf key hmem).1 hget)

/-- Every position before one of the key has an entry, in each list on the way. -/
def Gapless (f : FlatValues) (key : Key) : Prop :=
  ∀ before i after, key.segments = before ++ .index i :: after → ∀ j < i,
    ∃ rest v, f.get? ⟨before ++ .index j :: rest⟩ = some v

/-- A value is found under its own key when no longer key goes on from it and there is no gap on the
way. -/
theorem at?_nest (hf : ∀ k ∈ f.keys, k.IsAddress) (hget : f.get? key = some v) (hend : f.Ends key)
    (hfull : f.Gapless key) : f.nest.at? key = some v := by
  have hmem : key ∈ f.keys := SortedMap.mem_keys_of_get? hget
  -- Nothing moves on the way to the value.
  have hself : Tree.settled key.segments (Tree.ofFlat f) = key.segments := by
    refine Tree.settled_eq_self (Tree.proper_ofFlat f) (fits_ofFlat hf)
      (hend.find?_ofFlat (hf key hmem).1 hget) fun before i after hsplit j hj => ?_
    -- The entry at the lesser position need not be the one that is kept, but one going on from it is.
    obtain ⟨rest, w, hw⟩ := hfull before i after hsplit j hj
    obtain ⟨more, w', hw', hends⟩ := exists_ends hw
    have hne : before ++ .index j :: rest ++ more ≠ [] :=
      List.append_ne_nil_of_left_ne_nil (List.append_ne_nil_of_right_ne_nil _ (List.cons_ne_nil _ _)) _
    have hfind := hends.find?_ofFlat hne hw'
    exact ⟨rest ++ more, w', by simpa using hfind⟩
  have hnest := at?_nest_settled hf hget hend
  rwa [hself] at hnest

end FlatValues

end FlatRecord
