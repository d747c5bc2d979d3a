import FlatRecord.SortedMap

/-!
# Look-ups in sorted maps

What the edits of a `SortedMap` do to its look-ups, one equation for each edit, and what holds of a
map that is filled from a list of pairs: every entry comes from the list (`mem_of_get?_ofList`), a
pair whose key has one value only is found again (`get?_ofList_of_forall_eq`), and a list that
ascends already is the list of entries (`entries_ofList`).

`foldl_induction` is the induction behind every pass over the entries of a map: what holds of the
entries gone through so far is carried on by one step.
-/

namespace FlatRecord

universe u v w

/-- An induction over a left fold whose statement names the part of the list gone through so far:
what holds at the start and is kept by each step holds of the whole list. -/
theorem foldl_induction {α : Type u} {β : Type v} {f : β → α → β} {motive : List α → β → Prop}
    {l : List α} {b : β} (start : motive [] b)
    (step : ∀ done x rest c, l = done ++ x :: rest → motive done c → motive (done ++ [x]) (f c x)) :
    motive l (l.foldl f b) := by
  -- The induction is on the part of the list that is left, for any part gone through and any state.
  have run : ∀ rest done c, l = done ++ rest → motive done c → motive l (rest.foldl f c) := by
    intro rest
    induction rest with
    | nil =>
      intro done c hl hc
      rw [hl, List.append_nil]
      exact hc
    | cons x rest ih =>
      intro done c hl hc
      rw [List.foldl_cons]
      have hnext : l = (done ++ [x]) ++ rest := by
        rw [hl, List.append_assoc, List.singleton_append]
      exact ih (done ++ [x]) (f c x) hnext (step done x rest c hl hc)
  exact run l [] b rfl start

/-- The same induction over a fold that may fail, for the runs that do not. -/
theorem foldlM_induction {α : Type u} {β : Type v} {ε : Type w} {f : β → α → Except ε β}
    {motive : List α → β → Prop} {l : List α} {b b' : β} (start : motive [] b)
    (step : ∀ done x rest c c', l = done ++ x :: rest → f c x = .ok c' → motive done c →
      motive (done ++ [x]) c')
    (ran : l.foldlM f b = .ok b') : motive l b' := by
  have run : ∀ rest done c, l = done ++ rest → rest.foldlM f c = .ok b' → motive done c →
      motive l b' := by
    intro rest
    induction rest with
    | nil =>
      intro done c hl hran hc
      -- No step is left, so the state is the result.
      cases hran
      rw [hl, List.append_nil]
      exact hc
    | cons x rest ih =>
      intro done c hl hran hc
      rw [List.foldlM_cons] at hran
      cases hx : f c x with
      | error e => rw [hx] at hran; cases hran
      | ok c' =>
        rw [hx] at hran
        have hnext : l = (done ++ [x]) ++ rest := by
          rw [hl, List.append_assoc, List.singleton_append]
        exact ih (done ++ [x]) c' hnext hran (step done x rest c c' hl hx hc)
  exact run l [] b rfl ran start

namespace Ascending

variable {α : Type u} {β : Type v} {γ : Type w} [Ord α] {l : List (α × β)}

/-- Whether the keys of a list ascend can be computed. -/
instance : Decidable (Sorted l) := inferInstanceAs (Decidable (List.Pairwise _ l))

/-- Of two keys in order neither is the other. -/
theorem ne_of_lt [Std.TransOrd α] {a b : α} (h : compare a b = .lt) : a ≠ b := by
  rintro rfl
  have hself : compare a a = .eq := Std.ReflCmp.compare_self
  rw [hself] at h
  cases h

/-- In an ascending list a key has one value. -/
theorem eq_of_mem_of_mem [Std.TransOrd α] [Std.LawfulEqOrd α] (h : Sorted l) {k : α} {v v' : β}
    (hv : (k, v) ∈ l) (hv' : (k, v') ∈ l) : v = v' := by
  rw [← get?_eq_some_iff h] at hv hv'
  exact Option.some.inj (hv.symm.trans hv')

/-- A key without a value is not listed. -/
theorem get?_eq_none_iff [Std.LawfulEqOrd α] {k : α} :
    get? k l = none ↔ ∀ v, (k, v) ∉ l := by
  induction l with
  | nil => simp [get?]
  | cons p rest ih =>
    obtain ⟨k', v'⟩ := p
    -- The first pair has the key, so it is listed with the value there.
    by_cases hk : compare k k' = .eq
    · have hkey := Std.LawfulEqCmp.eq_of_compare hk
      subst hkey
      simp only [get?, hk, if_true, reduceCtorEq, false_iff]
      exact fun h => h v' List.mem_cons_self
    · -- Another key comes first, and the rest decides.
      have hne : k ≠ k' := fun e => hk (by rw [e]; exact Std.ReflCmp.compare_self)
      simp [get?, hk, ih, hne]

/-- Converted values are found under the keys of the values they were made of. -/
theorem get?_map (f : β → γ) (k : α) :
    get? k (l.map fun e => (e.1, f e.2)) = (get? k l).map f := by
  induction l with
  | nil => rfl
  | cons p rest ih =>
    rw [List.map_cons, get?, get?, ih]
    split <;> rfl

/-- A list with some of the keys of an ascending list, in their order, ascends. -/
theorem Sorted.of_map_fst_sublist {l' : List (α × γ)} (h : Sorted l)
    (hsub : (l'.map (·.1)).Sublist (l.map (·.1))) : Sorted l' := by
  have hkeys : (l.map (·.1)).Pairwise fun a b => compare a b = .lt := List.pairwise_map.2 h
  exact List.pairwise_map.1 (hkeys.sublist hsub)

end Ascending

namespace SortedMap

variable {α : Type u} {β : Type v} {γ : Type w} [Ord α]

/-- A map is determined by its list of entries. -/
theorem eq_of_entries_eq {m₁ m₂ : SortedMap α β} (h : m₁.entries = m₂.entries) : m₁ = m₂ := by
  cases m₁
  cases m₂
  cases h
  rfl

/-- Converted values are found under the keys of the values they were made of. -/
theorem get?_map (m : SortedMap α β) (f : β → γ) (k : α) : (m.map f).get? k = (m.get? k).map f :=
  Ascending.get?_map f k

/-- A key is in the map when it has a value. -/
theorem contains_iff {m : SortedMap α β} {k : α} : m.contains k = true ↔ ∃ v, m.get? k = some v :=
  Option.isSome_iff_exists

/-- A key is not in the map when it has no value. -/
theorem contains_eq_false_iff {m : SortedMap α β} {k : α} :
    m.contains k = false ↔ m.get? k = none := by
  unfold contains
  rw [Option.isSome_eq_false_iff, Option.isNone_iff_eq_none]

/-- The listed keys ascend. -/
theorem pairwise_keys (m : SortedMap α β) : m.keys.Pairwise fun a b => compare a b = .lt :=
  List.pairwise_map.2 m.sorted

/-- Of two entries the one further on in the list has the greater key. -/
theorem lt_of_append {m : SortedMap α β} {done rest : List (α × β)} {e : α × β}
    (h : m.entries = done ++ e :: rest) {d : α × β} (hd : d ∈ done) : compare d.1 e.1 = .lt := by
  have hs := m.sorted
  rw [h, Ascending.Sorted, List.pairwise_append] at hs
  exact hs.2.2 d hd e List.mem_cons_self

/-- The listed keys are different. -/
theorem nodup_keys [Std.TransOrd α] (m : SortedMap α β) : m.keys.Nodup :=
  m.pairwise_keys.imp Ascending.ne_of_lt

variable [Std.TransOrd α] [Std.LawfulEqOrd α]

omit [Std.TransOrd α] in
/-- The listed keys are those in the map. -/
theorem mem_keys {m : SortedMap α β} {k : α} : k ∈ m.keys ↔ m.contains k = true := by
  rw [contains_iff, keys, List.mem_map]
  constructor
  · rintro ⟨⟨k', v⟩, he, rfl⟩
    exact ⟨v, (get?_eq_some_iff m).2 he⟩
  · rintro ⟨v, hv⟩
    exact ⟨(k, v), (get?_eq_some_iff m).1 hv, rfl⟩

omit [Std.TransOrd α] in
/-- A filtered map has the entries that pass the test. -/
theorem get?_filter_eq_some_iff {m : SortedMap α β} {p : α → β → Bool} {k : α} {v : β} :
    (m.filter p).get? k = some v ↔ m.get? k = some v ∧ p k v = true := by
  rw [get?_eq_some_iff, get?_eq_some_iff]
  exact List.mem_filter

omit [Std.TransOrd α] in
/-- A map with an entry has one with the greatest key. -/
theorem exists_greatest {m : SortedMap α β} {k : α} {v : β} (h : m.get? k = some v) :
    ∃ k' v', m.get? k' = some v' ∧
      ∀ k'' v'', m.get? k'' = some v'' → k'' = k' ∨ compare k'' k' = .lt := by
  have hmem : (k, v) ∈ m.entries := (get?_eq_some_iff m).1 h
  -- The greatest entry is the last one, as the entries ascend.
  have hlast := (List.dropLast_concat_getLast (List.ne_nil_of_mem hmem)).symm
  generalize m.entries.getLast (List.ne_nil_of_mem hmem) = last at hlast
  have hin : (last.1, last.2) ∈ m.entries := by
    rw [hlast]
    exact List.mem_append_right _ List.mem_cons_self
  refine ⟨last.1, last.2, (get?_eq_some_iff m).2 hin, fun k'' v'' h'' => ?_⟩
  have hmem'' : (k'', v'') ∈ m.entries := (get?_eq_some_iff m).1 h''
  rw [hlast, List.mem_append, List.mem_singleton] at hmem''
  rcases hmem'' with hbefore | heq
  · exact .inr (lt_of_append hlast hbefore)
  · exact .inl (congrArg Prod.fst heq)

omit [Std.TransOrd α] in
/-- A key is one of those under which there is a value. -/
theorem mem_keys_iff {m : SortedMap α β} {k : α} : k ∈ m.keys ↔ ∃ v, m.get? k = some v :=
  mem_keys.trans contains_iff

omit [Std.TransOrd α] in
/-- A key under which something is found is a key of the map. -/
theorem mem_keys_of_get? {m : SortedMap α β} {k : α} {v : β} (h : m.get? k = some v) : k ∈ m.keys :=
  mem_keys_iff.2 ⟨v, h⟩

section Edits

variable [DecidableEq α]

/-- After an edit under `k` the key holds what the edit made. -/
theorem get?_alter_eq (m : SortedMap α β) (k : α) (f : Option β → Option β) (k' : α) :
    (m.alter k f).get? k' = if k' = k then f (m.get? k) else m.get? k' := by
  rw [get?_alter]
  by_cases h : k' = k
  · rw [if_pos h, if_pos (by rw [h]; exact Std.ReflCmp.compare_self)]
  · rw [if_neg h, if_neg fun e => h (Std.LawfulEqCmp.eq_of_compare e)]

/-- After a value is stored the key holds it. -/
theorem get?_insert (m : SortedMap α β) (k : α) (v : β) (k' : α) :
    (m.insert k v).get? k' = if k' = k then some v else m.get? k' :=
  get?_alter_eq m k _ k'

/-- After a value is offered the key holds it unless it had one. -/
theorem get?_insertIfNew (m : SortedMap α β) (k : α) (v : β) (k' : α) :
    (m.insertIfNew k v).get? k' = if k' = k then some ((m.get? k).getD v) else m.get? k' :=
  get?_alter_eq m k _ k'

/-- A stored key is in the map. -/
theorem contains_insert {m : SortedMap α β} {k k' : α} {v : β} :
    (m.insert k v).contains k' = true ↔ k' = k ∨ m.contains k' = true := by
  rw [contains, get?_insert]
  by_cases h : k' = k
  · simp [h]
  · simp [h, contains]

omit [DecidableEq α] in
/-- Removing keys leaves the others. -/
theorem get?_foldl_erase_of_not_mem {keys : List α} {k : α} (m : SortedMap α β) (h : k ∉ keys) :
    (keys.foldl erase m).get? k = m.get? k := by
  induction keys generalizing m with
  | nil => rfl
  | cons k' rest ih =>
    rw [List.mem_cons, not_or] at h
    calc (rest.foldl erase (m.erase k')).get? k = (m.erase k').get? k := ih (m.erase k') h.2
      _ = m.get? k := get?_erase_of_ne m h.1

omit [DecidableEq α] in
/-- Storing pairs leaves the keys that none of them has. -/
theorem get?_insertMany_of_not_mem {l : List (α × β)} {k : α} (m : SortedMap α β)
    (h : k ∉ l.map (·.1)) : (m.insertMany l).get? k = m.get? k := by
  induction l generalizing m with
  | nil => rfl
  | cons p rest ih =>
    rw [List.map_cons, List.mem_cons, not_or] at h
    calc ((m.insert p.1 p.2).insertMany rest).get? k = (m.insert p.1 p.2).get? k :=
          ih (m.insert p.1 p.2) h.2
      _ = m.get? k := get?_insert_of_ne m p.2 h.1

/-- Storing pairs under a key whose pairs all have one value gives the key that value. -/
theorem get?_insertMany_of_forall_eq {l : List (α × β)} {k : α} {v : β} (m : SortedMap α β)
    (h : (k, v) ∈ l) (huniq : ∀ w, (k, w) ∈ l → w = v) : (m.insertMany l).get? k = some v := by
  induction l generalizing m with
  | nil => cases h
  | cons p rest ih =>
    unfold insertMany
    rw [List.foldl_cons]
    -- The key is stored again later, with the one value that it has, or the pairs after this one leave
    -- what it stores.
    by_cases hk : k ∈ rest.map (·.1)
    · obtain ⟨⟨k', w⟩, hw, rfl⟩ := List.mem_map.1 hk
      have hwv := huniq w (List.mem_cons_of_mem _ hw)
      rw [hwv] at hw
      exact ih (m.insert p.1 p.2) hw fun w' hw' => huniq w' (List.mem_cons_of_mem _ hw')
    · have hp : p = (k, v) := by
        rcases List.mem_cons.1 h with h | h
        · exact h.symm
        · exact absurd (List.mem_map.2 ⟨(k, v), h, rfl⟩) hk
      calc ((m.insert p.1 p.2).insertMany rest).get? k = (m.insert p.1 p.2).get? k :=
            get?_insertMany_of_not_mem (m.insert p.1 p.2) hk
        _ = some v := by
          rw [hp]
          exact get?_insert_self m k v

/-- What is found after pairs were stored is in one of them or was there before. -/
theorem mem_or_of_get?_insertMany {l : List (α × β)} {k : α} {v : β} (m : SortedMap α β)
    (h : (m.insertMany l).get? k = some v) : (k, v) ∈ l ∨ m.get? k = some v := by
  induction l generalizing m with
  | nil => exact .inr h
  | cons p rest ih =>
    unfold insertMany at h
    rw [List.foldl_cons] at h
    rcases ih (m.insert p.1 p.2) h with hmem | hget
    · exact .inl (List.mem_cons_of_mem _ hmem)
    · -- What was there before the rest was stored is the first pair or older.
      rw [get?_insert] at hget
      by_cases hk : k = p.1
      · rw [if_pos hk] at hget
        cases hget
        rw [hk]
        exact .inl List.mem_cons_self
      · rw [if_neg hk] at hget
        exact .inr hget

/-- After pairs were stored a key has a value if one of them has the key or it had a value before. -/
theorem exists_get?_insertMany {l : List (α × β)} {k : α} (m : SortedMap α β)
    (h : k ∈ l.map (·.1) ∨ ∃ v, m.get? k = some v) : ∃ v, (m.insertMany l).get? k = some v := by
  induction l generalizing m with
  | nil => exact h.resolve_left List.not_mem_nil
  | cons p rest ih =>
    unfold insertMany
    rw [List.foldl_cons]
    refine ih (m.insert p.1 p.2) ?_
    rw [List.map_cons, List.mem_cons, or_right_comm] at h
    rcases h with h | hrest
    · refine .inr ?_
      rw [get?_insert]
      -- The first pair gives the key a value, or it had one.
      by_cases hk : k = p.1
      · exact ⟨p.2, if_pos hk⟩
      · rw [if_neg hk]
        exact h.resolve_left hk
    · exact .inl hrest

/-- Every entry of a map filled from a list is a pair of the list. -/
theorem mem_of_get?_ofList {l : List (α × β)} {k : α} {v : β} (h : (ofList l).get? k = some v) :
    (k, v) ∈ l := by
  rcases mem_or_of_get?_insertMany ∅ h with h | h
  · exact h
  · rw [get?_empty] at h
    cases h

/-- A pair is found in the map filled from a list if its key has no other value there. -/
theorem get?_ofList_of_forall_eq {l : List (α × β)} {k : α} {v : β} (h : (k, v) ∈ l)
    (huniq : ∀ w, (k, w) ∈ l → w = v) : (ofList l).get? k = some v :=
  get?_insertMany_of_forall_eq ∅ h huniq

/-- After the entries of another map were stored, with their values converted, a key has the converted
value from there if there is one. -/
theorem get?_insertMany_map (m : SortedMap α β) (m' : SortedMap α γ) (g : γ → β) (k : α) :
    (m.insertMany (m'.entries.map fun e => (e.1, g e.2))).get? k =
      ((m'.get? k).map g).or (m.get? k) := by
  -- A key is among the converted entries with the converted values that it has.
  have hentry : ∀ w, (k, w) ∈ m'.entries.map (fun e => (e.1, g e.2)) ↔
      ∃ c, m'.get? k = some c ∧ w = g c := by
    intro w
    simp only [List.mem_map, Prod.mk.injEq, get?_eq_some_iff]
    constructor
    · rintro ⟨⟨k', c⟩, hc, rfl, rfl⟩
      exact ⟨c, hc, rfl⟩
    · rintro ⟨c, hc, rfl⟩
      exact ⟨(k, c), hc, rfl, rfl⟩
  cases h : m'.get? k with
  | none =>
    refine get?_insertMany_of_not_mem m fun hk => ?_
    obtain ⟨⟨k', w⟩, hw, rfl⟩ := List.mem_map.1 hk
    obtain ⟨c, hc, -⟩ := (hentry w).1 hw
    rw [h] at hc
    cases hc
  | some c =>
    refine get?_insertMany_of_forall_eq m ((hentry _).2 ⟨c, h, rfl⟩) fun w hw => ?_
    obtain ⟨c', hc', rfl⟩ := (hentry w).1 hw
    rw [h] at hc'
    rw [Option.some.inj hc']

/-- After a value was offered to several keys, each of them holds it unless it had one. -/
theorem get?_foldl_insertIfNew (m : SortedMap α β) (keys : List α) (v : β) (k : α) :
    (keys.foldl (fun m k' => m.insertIfNew k' v) m).get? k =
      if k ∈ keys then some ((m.get? k).getD v) else m.get? k := by
  induction keys generalizing m with
  | nil => rfl
  | cons k' rest ih =>
    rw [List.foldl_cons, ih, get?_insertIfNew]
    by_cases hk : k = k'
    · simp [hk]
    · simp [hk]

/-- A list that ascends already is the list of entries of the map filled from it. -/
theorem entries_ofList {l : List (α × β)} (h : Ascending.Sorted l) : (ofList l).entries = l := by
  -- The two maps have the same look-ups: no key of an ascending list is stored twice.
  have hmap : ofList l = ⟨l, h⟩ := ext_get? fun k => by
    cases hk : (ofList l).get? k with
    | some v =>
      have hmem : (k, v) ∈ l := mem_of_get?_ofList hk
      exact ((get?_eq_some_iff ⟨l, h⟩).2 hmem).symm
    -- A key that the filled map does not have is in no pair of the list.
    | none =>
      refine (Ascending.get?_eq_none_iff.2 fun v hv => ?_).symm
      have huniq : ∀ w, (k, w) ∈ l → w = v := fun w hw => Ascending.eq_of_mem_of_mem h hw hv
      rw [get?_ofList_of_forall_eq hv huniq] at hk
      cases hk
  rw [hmap]

end Edits

end SortedMap

end FlatRecord
