/-!
# Association lists in ascending order

The keys of a list of pairs ascend strictly when it is `Sorted`. `alter` is the one edit: it hands
the value under a key, if there is one, to a function and stores what comes back. `get?_alter` says
what the edit does to every look-up, `sorted_alter` that the order is kept, and `eq_of_get?_eq`
that an ascending list is determined by its look-ups.
-/

namespace FlatRecord

universe u v

variable {α : Type u} {β : Type v}

namespace Ascending

/-- The keys of an association list ascend strictly. -/
def Sorted [Ord α] (l : List (α × β)) : Prop :=
  l.Pairwise fun x y => compare x.1 y.1 = .lt

/-- The value under a key. -/
def get? [Ord α] (k : α) : List (α × β) → Option β
  | [] => none
  | (k', v) :: rest => if compare k k' = .eq then some v else get? k rest

/-- Replaces the value under `k` by what `f` makes of it; `none` stands for no entry, before and
after. -/
def alter [Ord α] (k : α) (f : Option β → Option β) : List (α × β) → List (α × β)
  | [] => match f none with
    | some v => [(k, v)]
    | none => []
  | (k', v') :: rest => match compare k k' with
    | .lt => match f none with
      | some v => (k, v) :: (k', v') :: rest
      | none => (k', v') :: rest
    | .eq => match f (some v') with
      | some v => (k, v) :: rest
      | none => rest
    | .gt => (k', v') :: alter k f rest

variable [Ord α]

/-- An alteration adds no pairs under other keys. -/
theorem mem_alter {k : α} {f : Option β → Option β} {l : List (α × β)} {p : α × β}
    (h : p ∈ alter k f l) : p.1 = k ∨ p ∈ l := by
  induction l with
  | nil =>
    unfold alter at h
    split at h <;> simp_all
  | cons q rest ih =>
    unfold alter at h
    split at h
    · -- A pair may be put in front of the list.
      split at h
      · rcases List.mem_cons.1 h with rfl | h
        · exact .inl rfl
        · exact .inr h
      · exact .inr h
    · -- The first pair may be replaced or dropped.
      split at h
      · rcases List.mem_cons.1 h with rfl | h
        · exact .inl rfl
        · exact .inr (List.mem_cons_of_mem _ h)
      · exact .inr (List.mem_cons_of_mem _ h)
    · -- The first pair stays, and the rest is altered.
      rcases List.mem_cons.1 h with rfl | h
      · exact .inr List.mem_cons_self
      · exact (ih h).imp id (List.mem_cons_of_mem _)

/-- Nothing is found under a key that comes before all others. -/
theorem get?_eq_none_of_lt {k : α} {l : List (α × β)}
    (h : ∀ p ∈ l, compare k p.1 = .lt) : get? k l = none := by
  induction l with
  | nil => rfl
  | cons p rest ih =>
    have hp := h p List.mem_cons_self
    simp only [get?, hp]
    exact ih fun q hq => h q (List.mem_cons_of_mem _ hq)

/-- A key before the first one comes before all others. -/
theorem Sorted.lt_of_lt_head [Std.TransOrd α] {k : α} {p : α × β} {rest : List (α × β)} (h : Sorted (p :: rest))
    (hlt : compare k p.1 = .lt) : ∀ q ∈ p :: rest, compare k q.1 = .lt := by
  intro q hq
  rcases List.mem_cons.1 hq with rfl | hq
  · exact hlt
  · exact Std.TransCmp.lt_trans hlt ((List.pairwise_cons.1 h).1 q hq)

/-- The first key is not found behind the first pair. -/
theorem Sorted.get?_head_eq_none {p : α × β} {rest : List (α × β)} (h : Sorted (p :: rest)) :
    get? p.1 rest = none :=
  get?_eq_none_of_lt (List.pairwise_cons.1 h).1

variable [Std.TransOrd α] [Std.LawfulEqOrd α]

/-- An alteration keeps the keys in ascending order. -/
theorem sorted_alter {k : α} {f : Option β → Option β} {l : List (α × β)} (h : Sorted l) :
    Sorted (alter k f l) := by
  induction l with
  | nil =>
    unfold alter
    split <;> simp [Sorted]
  | cons p rest ih =>
    obtain ⟨hp, hrest⟩ := List.pairwise_cons.1 h
    unfold alter
    split
    · -- A pair in front of the list comes before all of it.
      rename_i hlt
      split
      · exact List.pairwise_cons.2 ⟨h.lt_of_lt_head hlt, h⟩
      · exact h
    · -- A pair in the place of the first one has the same key.
      rename_i heq
      have hkey : k = p.1 := Std.LawfulEqCmp.eq_of_compare heq
      split
      · exact List.pairwise_cons.2 ⟨fun q hq => by rw [hkey]; exact hp q hq, hrest⟩
      · exact hrest
    · -- The altered rest has no keys but its own and the new one, and they come after the first.
      rename_i hgt
      refine List.pairwise_cons.2 ⟨fun q hq => ?_, ih hrest⟩
      rcases mem_alter hq with hq | hq
      · rw [hq]
        exact Std.OrientedCmp.lt_of_gt hgt
      · exact hp q hq

/-- After an edit the key holds what the function made, and every other key what it held. -/
theorem get?_alter {k : α} {f : Option β → Option β} {l : List (α × β)} (h : Sorted l) (k' : α) :
    get? k' (alter k f l) = if compare k' k = .eq then f (get? k l) else get? k' l := by
  induction l with
  | nil =>
    unfold alter
    split <;> simp_all [get?]
  | cons p rest ih =>
    have hrest : Sorted rest := (List.pairwise_cons.1 h).2
    unfold alter
    split
    · -- The key comes before all of the list, so it has no value yet.
      rename_i hlt
      have hnone : get? k (p :: rest) = none := get?_eq_none_of_lt (h.lt_of_lt_head hlt)
      rw [hnone]
      split
      · rename_i v hv
        rw [get?, hv]
      · -- No value is stored either: the list stays as it is.
        rename_i hv
        by_cases hk : compare k' k = .eq
        · have hkey : k' = k := Std.LawfulEqCmp.eq_of_compare hk
          rw [if_pos hk, hv, hkey, hnone]
        · rw [if_neg hk]
    · -- The key is that of the first pair.
      rename_i heq
      have hkey : k = p.1 := Std.LawfulEqCmp.eq_of_compare heq
      have hself : get? k (p :: rest) = some p.2 := by rw [get?, if_pos heq]
      rw [hself, hkey]
      split
      · rename_i v hv
        rw [get?, get?, hv]
        split <;> rfl
      · -- The pair is dropped, and nothing else is stored under its key.
        rename_i hv
        by_cases hk : compare k' p.1 = .eq
        · have hkey' : k' = p.1 := Std.LawfulEqCmp.eq_of_compare hk
          rw [if_pos hk, hv, hkey', h.get?_head_eq_none]
        · rw [if_neg hk, get?, if_neg hk]
    · -- The key comes after the first one, so the rest is altered and the first pair stays.
      rename_i hgt
      have hne : ¬ compare k p.1 = .eq := by rw [hgt]; decide
      rw [get?, get?, get?, if_neg hne]
      by_cases hk : compare k' p.1 = .eq
      · have hkey' : k' = p.1 := Std.LawfulEqCmp.eq_of_compare hk
        have hother : ¬ compare k' k = .eq := fun hk' =>
          hne (by rw [← Std.LawfulEqCmp.eq_of_compare hk']; exact hk)
        rw [if_pos hk, if_neg hother, if_pos hk]
      · rw [if_neg hk, if_neg hk]
        exact ih hrest

omit [Std.TransOrd α] in
/-- What is found under the keys are the pairs of a list in ascending order. -/
theorem get?_eq_some_iff {k : α} {v : β} {l : List (α × β)} (h : Sorted l) :
    get? k l = some v ↔ (k, v) ∈ l := by
  induction l with
  | nil => simp [get?]
  | cons p rest ih =>
    obtain ⟨k', v'⟩ := p
    obtain ⟨hp, hrest⟩ := List.pairwise_cons.1 h
    have ih := ih hrest
    by_cases hk : compare k k' = .eq
    · have hkey : k = k' := Std.LawfulEqCmp.eq_of_compare hk
      subst hkey
      -- The first pair has the key, so no other pair has.
      have hnot : (k, v) ∉ rest := fun hm => by
        have hlt := hp _ hm
        simp [Std.ReflCmp.compare_self] at hlt
      simp [get?, hnot, eq_comm]
    · have hne : k ≠ k' := fun e => hk (by rw [e]; exact Std.ReflCmp.compare_self)
      simp [get?, hk, ih, hne]

/-- Two lists in ascending order are equal if they have the same under every key. -/
theorem eq_of_get?_eq {l₁ l₂ : List (α × β)} (h₁ : Sorted l₁) (h₂ : Sorted l₂)
    (h : ∀ k, get? k l₁ = get? k l₂) : l₁ = l₂ := by
  -- Something is found under the first key of a list, and nothing in the empty list.
  have hfound : ∀ (p : α × β) (rest : List (α × β)), get? p.1 (p :: rest) ≠ none := by
    intro p rest
    simp [get?, Std.ReflCmp.compare_self]
  induction l₁ generalizing l₂ with
  | nil =>
    cases l₂ with
    | nil => rfl
    | cons p rest => exact absurd (h p.1).symm (hfound p rest)
  | cons p r₁ ih =>
    cases l₂ with
    | nil => exact absurd (h p.1) (hfound p r₁)
    | cons q r₂ =>
      have hp := List.pairwise_cons.1 h₁
      have hq := List.pairwise_cons.1 h₂
      have hmemq : q ∈ p :: r₁ := by
        rw [← get?_eq_some_iff (k := q.1) (v := q.2) h₁, h q.1, get?_eq_some_iff h₂]
        exact List.mem_cons_self
      have hmemp : p ∈ q :: r₂ := by
        rw [← get?_eq_some_iff (k := p.1) (v := p.2) h₂, ← h p.1, get?_eq_some_iff h₁]
        exact List.mem_cons_self
      -- The first pairs are the same: else each would come before the other.
      have hpq : p = q := by
        rcases List.mem_cons.1 hmemq with heq | hlater
        · exact heq.symm
        · rcases List.mem_cons.1 hmemp with heq | hlater'
          · exact heq
          · have hcycle := Std.TransCmp.lt_trans (hp.1 q hlater) (hq.1 p hlater')
            simp [Std.ReflCmp.compare_self] at hcycle
      subst hpq
      congr 1
      refine ih hp.2 hq.2 fun k => ?_
      by_cases hk : compare k p.1 = .eq
      · have hkey : k = p.1 := Std.LawfulEqCmp.eq_of_compare hk
        rw [hkey, h₁.get?_head_eq_none, h₂.get?_head_eq_none]
      · have hrests := h k
        rwa [get?, get?, if_neg hk, if_neg hk] at hrests

end Ascending

end FlatRecord
