import FlatRecord.Listing

/-!
# Look-ups in maps in order of insertion

A pair of a listing is found under its key and nothing else is (`Listing.get?_eq_some_iff`). Storing the
value that is there changes nothing, and of two values stored under one key the second counts
(`put_of_get?`, `put_put`). Where a pair is put in the order of the entries is said by
`Listed.put_cases`: in the place of the one with its key, or else at the end.

Two listings that answer every look-up alike have the same entries, in whatever order
(`Listing.perm_of_get?_eq`). A listing in front of another one hides the pairs with its keys there
(`Listing.get?_overlay`).
-/

namespace FlatRecord

namespace Listed

variable {α β : Type} [DecidableEq α] {l : List (α × β)} {k : α} {v : β}

/-- What is found under a key is a pair of the list. -/
theorem mem_of_get? (h : get? k l = some v) : (k, v) ∈ l := by
  induction l with
  | nil => cases h
  | cons p rest ih =>
    obtain ⟨k', v'⟩ := p
    by_cases hk : k = k'
    · rw [get?, if_pos hk, Option.some.injEq] at h
      rw [hk, h]
      exact List.mem_cons_self
    · rw [get?, if_neg hk] at h
      exact List.mem_cons_of_mem _ (ih h)

/-- Under the key of a pair some value is found. -/
theorem exists_get?_of_mem (h : (k, v) ∈ l) : ∃ w, get? k l = some w := by
  induction l with
  | nil => cases h
  | cons p rest ih =>
    obtain ⟨k', v'⟩ := p
    by_cases hk : k = k'
    · exact ⟨v', if_pos hk⟩
    · have hrest : (k, v) ∈ rest := (List.mem_cons.1 h).resolve_left fun he => hk (congrArg Prod.fst he)
      rw [get?, if_neg hk]
      exact ih hrest

/-- A pair is found when no other pair of the list has its key. -/
theorem get?_eq_some_iff (h : (l.map (·.1)).Nodup) : get? k l = some v ↔ (k, v) ∈ l := by
  refine ⟨mem_of_get?, fun hmem => ?_⟩
  induction l with
  | nil => cases hmem
  | cons p rest ih =>
    obtain ⟨k', v'⟩ := p
    rw [List.map_cons, List.nodup_cons] at h
    rcases List.mem_cons.1 hmem with he | hmem
    · -- The pair is the first one, or comes later and then the first one has another key.
      cases he
      rw [get?, if_pos rfl]
    · have hne : k ≠ k' := by
        intro he
        exact h.1 (List.mem_map.2 ⟨(k, v), hmem, he⟩)
      rw [get?, if_neg hne]
      exact ih h.2 hmem

/-- After a value is stored, a pair of the list is the stored one or was there before. -/
theorem mem_put {p : α × β} (h : p ∈ put k v l) : p = (k, v) ∨ p ∈ l := by
  induction l with
  | nil => exact .inl (List.mem_singleton.1 h)
  | cons q rest ih =>
    obtain ⟨k', v'⟩ := q
    by_cases hk : k = k'
    · -- The value takes the place of the first one, and the rest stays.
      rw [put, if_pos hk] at h
      exact (List.mem_cons.1 h).imp id (List.mem_cons_of_mem _)
    · rw [put, if_neg hk] at h
      rcases List.mem_cons.1 h with h | h
      · exact .inr (h ▸ List.mem_cons_self)
      · exact (ih h).imp id (List.mem_cons_of_mem _)

/-- Storing the value that is there changes nothing. -/
theorem put_of_get? (h : get? k l = some v) : put k v l = l := by
  induction l with
  | nil => cases h
  | cons p rest ih =>
    obtain ⟨k', v'⟩ := p
    by_cases hk : k = k'
    · rw [get?, if_pos hk, Option.some.injEq] at h
      rw [put, if_pos hk, hk, h]
    · rw [get?, if_neg hk] at h
      rw [put, if_neg hk, ih h]

/-- Of two values stored under one key the second counts. -/
theorem put_put (k : α) (v w : β) (l : List (α × β)) : put k v (put k w l) = put k v l := by
  induction l with
  | nil => exact if_pos rfl
  | cons p rest ih =>
    obtain ⟨k', v'⟩ := p
    by_cases hk : k = k'
    · rw [put, if_pos hk, put, if_pos rfl, put, if_pos hk]
    · rw [put, if_neg hk, put, if_neg hk, put, if_neg hk, ih]

/-- A value is stored in the place of the one under its key, or at the end if there is none. -/
theorem put_cases (k : α) (v : β) (l : List (α × β)) :
    (∃ before w after, l = before ++ (k, w) :: after ∧ put k v l = before ++ (k, v) :: after) ∨
      (k ∉ l.map (·.1) ∧ put k v l = l ++ [(k, v)]) := by
  induction l with
  | nil => exact .inr ⟨List.not_mem_nil, rfl⟩
  | cons p rest ih =>
    obtain ⟨k', v'⟩ := p
    by_cases hk : k = k'
    · -- The value is replaced in the first pair.
      subst hk
      exact .inl ⟨[], v', rest, rfl, by rw [put, if_pos rfl]; rfl⟩
    · rw [put, if_neg hk]
      rcases ih with ⟨before, w, after, rfl, hput⟩ | ⟨hnew, hput⟩
      · exact .inl ⟨(k', v') :: before, w, after, rfl, by rw [hput]; rfl⟩
      · -- No pair had the key, so the new one comes at the end.
        refine .inr ⟨?_, by rw [hput]; rfl⟩
        rw [List.map_cons, List.mem_cons, not_or]
        exact ⟨hk, hnew⟩

end Listed

namespace Listing

variable {α β : Type} [DecidableEq α] {l m : Listing α β} {k : α} {v : β}

omit [DecidableEq α] in
/-- A listing is determined by its pairs. -/
theorem eq_of_entries_eq (h : l.entries = m.entries) : l = m := by
  cases l
  cases m
  cases h
  rfl

/-- A pair of a listing is found under its key. -/
theorem get?_eq_some_iff : l.get? k = some v ↔ (k, v) ∈ l.entries :=
  Listed.get?_eq_some_iff l.nodup

/-- Storing the value that is there changes nothing. -/
theorem put_of_get? (h : l.get? k = some v) : l.put k v = l :=
  eq_of_entries_eq (Listed.put_of_get? h)

/-- Of two values stored under one key the second counts. -/
theorem put_put (l : Listing α β) (k : α) (v w : β) : (l.put k w).put k v = l.put k v :=
  eq_of_entries_eq (Listed.put_put k v w l.entries)

/-- A key is listed when it has a value. -/
theorem contains_iff : l.contains k = true ↔ ∃ v, l.get? k = some v := Option.isSome_iff_exists

/-- A key that the listing does not have is one under which nothing is found. -/
theorem contains_eq_false_iff : l.contains k = false ↔ l.get? k = none := by
  rw [contains, Option.isSome_eq_false_iff, Option.isNone_iff_eq_none]

/-- The keys are those that the listing has. -/
theorem mem_keys_iff : k ∈ l.keys ↔ l.contains k = true := by
  rw [contains_iff, keys, List.mem_map]
  constructor
  · rintro ⟨e, he, rfl⟩
    exact ⟨e.2, get?_eq_some_iff.2 he⟩
  · rintro ⟨v, hv⟩
    exact ⟨(k, v), get?_eq_some_iff.1 hv, rfl⟩

/-- A value stored under a new key makes the listing longer by one. -/
theorem size_put (l : Listing α β) (k : α) (v : β) :
    (l.put k v).size = if l.contains k then l.size else l.size + 1 := by
  have hlength : ∀ m : Listing α β, m.size = m.keys.length := fun m => (List.length_map _).symm
  have hkeys : (l.put k v).keys = if k ∈ l.keys then l.keys else l.keys ++ [k] :=
    Listed.keys_put k v l.entries
  simp only [hlength, hkeys, mem_keys_iff]
  split
  · rfl
  · exact List.length_append

omit [DecidableEq α] in
/-- No pair of a listing is repeated. -/
theorem nodup_entries (l : Listing α β) : l.entries.Nodup :=
  List.Pairwise.of_map _ (fun _ _ hne heq => hne (heq ▸ rfl)) l.nodup

/-- Listings that answer every look-up alike have the same entries, in whatever order. -/
theorem perm_of_get?_eq (h : ∀ k, l.get? k = m.get? k) : l.entries.Perm m.entries := by
  refine (List.perm_ext_iff_of_nodup l.nodup_entries m.nodup_entries).2 fun e => ?_
  rw [← get?_eq_some_iff, ← get?_eq_some_iff, h]

/-- Among the values a stored one comes after some that were there, and after it come some of the
others. -/
theorem exists_values_put (l : Listing α β) (k : α) (v : β) :
    ∃ before after after', l.values = before ++ after ∧
      (l.put k v).values = before ++ v :: after' ∧ ∀ w ∈ after', w ∈ after := by
  show ∃ before after after', l.entries.map (·.2) = before ++ after ∧
    (Listed.put k v l.entries).map (·.2) = before ++ v :: after' ∧ ∀ w ∈ after', w ∈ after
  rcases Listed.put_cases k v l.entries with ⟨before, w, after, hold, hnew⟩ | ⟨-, hnew⟩
  · refine ⟨before.map (·.2), w :: after.map (·.2), after.map (·.2), ?_, ?_, ?_⟩
    · rw [hold, List.map_append, List.map_cons]
    · rw [hnew, List.map_append, List.map_cons]
    · exact fun _ hmem => List.mem_cons_of_mem _ hmem
  · -- A value under a new key comes last.
    refine ⟨l.entries.map (·.2), [], [], (List.append_nil _).symm, ?_, nofun⟩
    rw [hnew, List.map_append, List.map_singleton]

/-- After the pairs of another listing were stored, a key has the value from there if there is one. -/
theorem get?_putMany (l m : Listing α β) (k : α) :
    (l.putMany m.entries).get? k = (m.get? k).or (l.get? k) := by
  obtain ⟨entries, nodup⟩ := m
  show (l.putMany entries).get? k = (Listed.get? k entries).or (l.get? k)
  induction entries generalizing l with
  | nil => rfl
  | cons p rest ih =>
    obtain ⟨k', v⟩ := p
    rw [List.map_cons, List.nodup_cons] at nodup
    have hstep : (l.putMany ((k', v) :: rest)).get? k = ((l.put k' v).putMany rest).get? k := rfl
    rw [hstep, ih (l.put k' v) nodup.2, get?_put, Listed.get?]
    by_cases hk : k = k'
    · -- The key is not stored again further on.
      have hnone : Listed.get? k rest = none := by
        cases hget : Listed.get? k rest with
        | none => rfl
        | some w => exact absurd (List.mem_map.2 ⟨_, Listed.mem_of_get? hget, hk⟩) nodup.1
      rw [if_pos hk, if_pos hk, hnone]
      rfl
    · rw [if_neg hk, if_neg hk]

/-- The pairs of a listing, then those pairs of another one whose keys it does not have. -/
def overlay (front back : Listing α β) : Listing α β where
  entries := front.entries ++ back.entries.filter fun e => !front.contains e.1
  nodup := by
    rw [List.map_append, List.nodup_append]
    refine ⟨front.nodup, back.nodup.sublist (List.filter_sublist.map _), fun a ha b hb heq => ?_⟩
    obtain ⟨e, he, rfl⟩ := List.mem_map.1 hb
    have hfree : front.contains e.1 = false := by simpa using (List.mem_filter.1 he).2
    rw [← heq, mem_keys_iff.1 ha] at hfree
    cases hfree

/-- A look-up goes to the listing in front first. -/
theorem get?_overlay (front back : Listing α β) (k : α) :
    (front.overlay back).get? k = (front.get? k).or (back.get? k) := by
  refine Option.ext fun v => ?_
  rw [Option.or_eq_some_iff, get?_eq_some_iff, get?_eq_some_iff, get?_eq_some_iff, overlay,
    List.mem_append, List.mem_filter, Bool.not_eq_true', contains_eq_false_iff, and_comm (a := _ ∈ _)]

end Listing

end FlatRecord
