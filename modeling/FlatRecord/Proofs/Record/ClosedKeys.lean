import FlatRecord.Proofs.Record.Nesting

/-!
# Keys with their gaps closed

What nesting leaves of the entries of a flat record and of their keys. The entries that are left are
those from whose keys no longer key goes on (`FlatValues.kept`), and in their keys each position is
lowered to the number of positions before it that are in use after the same segments
(`FlatValues.closed`).

Lowering keeps the order of keys (`FlatValues.compare_closed`), and keys without gaps stay as they are
(`FlatValues.closed_eq_self`). Where the children of a node are listed in order, the number of those
before a position counts the lesser positions in use (`Ascending.rank_index_eq_countP`).
-/

namespace FlatRecord

/-! ## Counting positions -/

namespace Ascending

universe u v

section Rank

variable {α : Type u} {β : Type v} [Ord α] {k : α} {l : List (α × β)}

/-- No entry is before a key that none of them precedes. -/
theorem rank_eq_zero (h : ∀ e ∈ l, compare e.1 k ≠ .lt) : rank k l = 0 := by
  cases l with
  | nil => rfl
  | cons e rest => rw [rank, if_neg (h e List.mem_cons_self)]

/-- An entry has as many entries before it as its place in the list says. -/
theorem rank_of_getElem? [Std.TransOrd α] [Std.LawfulEqOrd α] {w : β} {i : Nat} (h : Sorted l)
    (hi : l[i]? = some (k, w)) : rank k l = i := by
  have hrank : l[rank k l]? = some (k, w) := getElem?_rank h (List.mem_of_getElem? hi)
  have hnodup : l.Nodup := h.imp fun hlt heq => ne_of_lt hlt (congrArg Prod.fst heq)
  have hlength : i < l.length := (List.getElem?_eq_some_iff.1 hi).1
  exact ((List.getElem?_inj hlength hnodup).1 (hi.trans hrank.symm)).symm

end Rank

section Positions

variable {β : Type v} {l : List (Segment × β)} {i : Nat}

/-- Before a position come the segments before the last position, and that position. -/
theorem compare_index_succ_eq_lt_iff {s : Segment} :
    compare s (.index (i + 1)) = .lt ↔ compare s (.index i) = .lt ∨ s = .index i := by
  cases s with
  | index j =>
    show compare j (i + 1) = .lt ↔ compare j i = .lt ∨ _
    rw [Nat.compare_eq_lt, Nat.compare_eq_lt, Segment.index.injEq]
    omega
  | field name => exact ⟨nofun, fun h => h.elim nofun nofun⟩
  | control c => exact ⟨nofun, fun h => h.elim nofun nofun⟩

/-- Between a position and the next one there is nothing. -/
theorem not_compare_index_succ {s : Segment} (h : compare (.index i) s = .lt) :
    compare s (.index (i + 1)) ≠ .lt := by
  cases s with
  | index j =>
    have hlt : i < j := Nat.compare_eq_lt.1 h
    intro hsucc
    have hle : j < i + 1 := Nat.compare_eq_lt.1 hsucc
    omega
  | field name => exact nofun
  | control c => exact nofun

/-- One position further on there is one more entry before it if the last position is in use. -/
theorem rank_index_succ (h : Sorted l) :
    rank (.index (i + 1)) l = rank (.index i) l + if (get? (.index i) l).isSome then 1 else 0 := by
  induction l with
  | nil => rfl
  | cons e rest ih =>
    obtain ⟨s, w⟩ := e
    obtain ⟨hfirst, hrest⟩ := List.pairwise_cons.1 h
    -- The first entry is before the last position, or at it, or after it.
    rw [rank, rank, get?]
    cases hcompare : compare s (.index i) with
    | lt =>
      have hgt : compare (.index i) s ≠ .eq := by
        rw [Std.OrientedOrd.eq_swap, hcompare]
        decide
      rw [if_pos (compare_index_succ_eq_lt_iff.2 (.inl hcompare)), if_pos rfl, if_neg hgt, ih hrest]
      omega
    | eq =>
      -- All that follows comes after the position.
      cases Std.LawfulEqOrd.eq_of_compare hcompare
      have hnone : rank (.index (i + 1)) rest = 0 :=
        rank_eq_zero fun e he => not_compare_index_succ (hfirst e he)
      rw [if_pos (compare_index_succ_eq_lt_iff.2 (.inr rfl)), hnone, if_pos hcompare]
      rfl
    | gt =>
      have hlt : compare (.index i) s = .lt := by rw [Std.OrientedOrd.eq_swap, hcompare]; rfl
      have hnone : get? (.index i) rest = none :=
        get?_eq_none_of_lt fun e he => Std.TransCmp.lt_trans hlt (hfirst e he)
      simp [not_compare_index_succ hlt, hlt, hnone]

/-- The number of children before a position is that of the lesser positions in use. -/
theorem rank_index_eq_countP (h : Sorted l) (i : Nat) :
    rank (.index i) l = (List.range i).countP fun j => (get? (.index j) l).isSome := by
  induction i with
  | zero =>
    refine rank_eq_zero fun e _ => ?_
    cases e.1 with
    | index j => exact fun h => Nat.not_lt_zero j (Nat.compare_eq_lt.1 h)
    | field name => exact nofun
    | control c => exact nofun
  | succ i ih =>
    rw [rank_index_succ h, ih, List.range_succ, List.countP_append, List.countP_singleton]

end Positions

end Ascending

/-! ## Keys with their gaps closed -/

namespace FlatValues

variable {f : FlatValues} {key : Key} {before path rest : List Segment} {s s' : Segment} {i : Nat}
  {v : Json}

/-- The entries from whose keys no longer key goes on. -/
def kept (f : FlatValues) : FlatValues :=
  f.filter fun key _ => !f.keys.any fun k => k.startsWith key && k != key

/-- The number of positions before `i` that some key has after the given segments. -/
def positionsBefore (f : FlatValues) (before : List Segment) (i : Nat) : Nat :=
  (List.range i).countP fun j => f.keys.any fun k => k.startsWith ⟨before ++ [.index j]⟩

/-- A segment after the given ones; a position is lowered to the number of positions before it. -/
def closedSegment (f : FlatValues) (before : List Segment) : Segment → Segment
  | .index i => .index (f.positionsBefore before i)
  | s => s

/-- Segments after the given ones, with each position lowered to the number of positions before it. -/
def closedFrom (f : FlatValues) (before : List Segment) : List Segment → List Segment
  | [] => []
  | s :: rest => f.closedSegment before s :: closedFrom f (before ++ [s]) rest

/-- A key with each position lowered to the number of positions before it. -/
def closed (f : FlatValues) (key : Key) : Key := ⟨f.closedFrom [] key.segments⟩

/-- The kept entries are those from whose keys no longer key goes on. -/
theorem get?_kept_iff : f.kept.get? key = some v ↔ f.get? key = some v ∧ f.Ends key := by
  rw [kept, SortedMap.get?_filter_eq_some_iff]
  refine and_congr_right fun _ => ?_
  rw [Bool.not_eq_true', List.any_eq_false]
  constructor
  · intro hall rest hrest
    cases hget : f.get? ⟨key.segments ++ rest⟩ with
    | none => rfl
    | some w =>
      -- A longer key with a value would keep the entry out.
      refine absurd ?_ (hall _ (SortedMap.mem_keys_of_get? hget))
      rw [Bool.and_eq_true, bne_iff_ne, Key.startsWith, List.isPrefixOf_iff_prefix]
      refine ⟨List.prefix_append _ _, fun heq => hrest ?_⟩
      exact List.append_right_eq_self.1 (congrArg Key.segments heq)
  · intro hends k hk hlonger
    -- Another key that starts with this one is longer, and so has no value.
    rw [Bool.and_eq_true, bne_iff_ne, Key.startsWith, List.isPrefixOf_iff_prefix] at hlonger
    obtain ⟨⟨rest, hrest⟩, hne⟩ := hlonger
    obtain ⟨w, hw⟩ := SortedMap.mem_keys_iff.1 hk
    have hkey : k = ⟨key.segments ++ rest⟩ := by rw [hrest]
    have hnil : rest ≠ [] := fun h => hne (by rw [hkey, h, List.append_nil])
    rw [hkey, hends rest hnil] at hw
    cases hw

/-- A key keeps its length. -/
@[simp] theorem length_closedFrom : (f.closedFrom before path).length = path.length := by
  induction path generalizing before with
  | nil => rfl
  | cons s path ih => rw [closedFrom, List.length_cons, List.length_cons, ih]

/-! ### Order -/

/-- A position in use has more positions before it than an earlier one in use. -/
theorem positionsBefore_lt {j : Nat} (hij : i < j)
    (huse : ∃ k ∈ f.keys, before ++ [.index i] <+: k.segments) :
    f.positionsBefore before i < f.positionsBefore before j := by
  have hany : (f.keys.any fun k => k.startsWith ⟨before ++ [.index i]⟩) = true := by
    obtain ⟨k, hk, hbegin⟩ := huse
    exact List.any_eq_true.2 ⟨k, hk, List.isPrefixOf_iff_prefix.2 hbegin⟩
  have hnext : f.positionsBefore before (i + 1) = f.positionsBefore before i + 1 := by
    rw [positionsBefore, List.range_succ, List.countP_append, List.countP_singleton, if_pos hany]
    rfl
  have hle : f.positionsBefore before (i + 1) ≤ f.positionsBefore before j :=
    (List.range_sublist.2 hij).countP_le
  omega

/-- Lowering keeps the order of two segments, the first of which is in use. -/
theorem compare_closedSegment (hlt : compare s s' = .lt)
    (huse : ∃ k ∈ f.keys, before ++ [s] <+: k.segments) :
    compare (f.closedSegment before s) (f.closedSegment before s') = .lt := by
  cases s with
  -- Positions stay in order, and stay in front of names and slots.
  | index i =>
    cases s' with
    | index j => exact Nat.compare_eq_lt.2 (positionsBefore_lt (Nat.compare_eq_lt.1 hlt) huse)
    | field name => rfl
    | control c => rfl
  | field name =>
    cases s' with
    | index j => cases hlt
    | field name' => exact hlt
    | control c => rfl
  | control c =>
    cases s' with
    | index j => cases hlt
    | field name' => cases hlt
    | control c' => exact hlt

/-- Lowering keeps the order of segments, the first of which are in use. -/
theorem compare_closedFrom {path path' : List Segment} (hlt : compare path path' = .lt)
    (hlength : path.length = path'.length)
    (huse : ∃ k ∈ f.keys, before ++ path <+: k.segments) :
    compare (f.closedFrom before path) (f.closedFrom before path') = .lt := by
  induction path generalizing path' before with
  | nil =>
    cases path' with
    | nil => cases hlt
    | cons s' path' => cases hlength
  | cons s path ih =>
    cases path' with
    | nil => cases hlength
    | cons s' path' =>
      -- The first segments differ, and then they decide, or they are one and are lowered alike.
      rw [List.compare_eq_compareLex, List.compareLex_cons_cons, Ordering.then_eq_lt] at hlt
      rw [closedFrom, closedFrom, List.compare_eq_compareLex, List.compareLex_cons_cons,
        Ordering.then_eq_lt]
      rcases hlt with hlt | ⟨heq, hlt⟩
      · obtain ⟨k, hk, hbegin⟩ := huse
        refine .inl (compare_closedSegment hlt ⟨k, hk, .trans ?_ hbegin⟩)
        exact ⟨path, List.append_assoc ..⟩
      · cases Std.LawfulEqOrd.eq_of_compare heq
        rw [← List.compare_eq_compareLex] at hlt ⊢
        refine .inr ⟨Std.ReflCmp.compare_self, ih hlt (Nat.succ.inj hlength) ?_⟩
        rwa [List.append_assoc]

/-- Lowering keeps the order of keys. -/
theorem compare_closed {l : Key} (hlt : compare key l = .lt) (hkey : key ∈ f.keys) :
    compare (f.closed key) (f.closed l) = .lt := by
  have hlt : (compare key.length l.length).then (compare key.segments l.segments) = .lt := hlt
  rw [Ordering.then_eq_lt] at hlt
  show (compare (f.closed key).length (f.closed l).length).then _ = _
  have hlength : ∀ k : Key, (f.closed k).length = k.length := fun k => length_closedFrom
  rw [hlength, hlength, Ordering.then_eq_lt]
  refine hlt.imp_right fun ⟨heq, hlt⟩ => ⟨heq, ?_⟩
  exact compare_closedFrom hlt (Nat.compare_eq_eq.1 heq) ⟨key, hkey, List.prefix_refl _⟩

/-- A position is not lowered when every lesser one is in use. -/
theorem positionsBefore_eq_self
    (hfull : ∀ j < i, ∃ rest v, f.get? ⟨before ++ .index j :: rest⟩ = some v) :
    f.positionsBefore before i = i := by
  have hall : ∀ j ∈ List.range i,
      (f.keys.any fun k => k.startsWith ⟨before ++ [.index j]⟩) = true := by
    intro j hj
    obtain ⟨rest, v, hget⟩ := hfull j (List.mem_range.1 hj)
    refine List.any_eq_true.2 ⟨_, SortedMap.mem_keys_of_get? hget, List.isPrefixOf_iff_prefix.2 ?_⟩
    exact ⟨rest, List.append_assoc ..⟩
  rw [positionsBefore, List.countP_eq_length.2 hall, List.length_range]

/-- Nothing is lowered when every lesser position is in use, in each list on the way. -/
theorem closedFrom_eq_self
    (hfull : ∀ mid i after, path = mid ++ .index i :: after → ∀ j < i,
      ∃ rest v, f.get? ⟨before ++ mid ++ .index j :: rest⟩ = some v) :
    f.closedFrom before path = path := by
  induction path generalizing before with
  | nil => rfl
  | cons s path ih =>
    -- All lesser positions are in use, so the segment is lowered to itself.
    have hsegment : f.closedSegment before s = s := by
      cases s with
      | index i =>
        refine congrArg Segment.index (positionsBefore_eq_self fun j hj => ?_)
        have hget := hfull [] i path rfl j hj
        rwa [List.append_nil] at hget
      | field name => rfl
      | control c => rfl
    have hrest : f.closedFrom (before ++ [s]) path = path := by
      refine ih fun mid i after hsplit j hj => ?_
      have hget := hfull (s :: mid) i after (by rw [hsplit, List.cons_append]) j hj
      rwa [List.append_cons] at hget
    rw [closedFrom, hsegment, hrest]

/-- A key without gaps on the way stays as it is. -/
theorem closed_eq_self (hfull : f.Gapless key) : f.closed key = key :=
  congrArg Key.mk (closedFrom_eq_self hfull)

/-- Everything is kept when no key goes on from another. -/
theorem kept_eq_self (hends : ∀ k ∈ f.keys, f.Ends k) : f.kept = f :=
  SortedMap.ext_get? fun k => Option.ext fun v => by
    rw [get?_kept_iff]
    exact ⟨fun h => h.1, fun h => ⟨h, hends k (SortedMap.mem_keys_of_get? h)⟩⟩

end FlatValues

end FlatRecord
