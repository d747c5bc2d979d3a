/-!
# Maps in order of insertion

A `Listing` is a map that lists its entries in the order in which their keys were first stored. A
new value for a key takes the place of the old one. Columns of a table, cells of a row and rows of a
table are listings.
-/

namespace FlatRecord

universe u v

variable {α : Type u} {β : Type v} [DecidableEq α]

namespace Listed

/-- The first value under a key. -/
def get? (k : α) : List (α × β) → Option β
  | [] => none
  | (k', v) :: rest => if k = k' then some v else get? k rest

/-- Stores a value in the place of the one under the same key, or at the end. -/
def put (k : α) (v : β) : List (α × β) → List (α × β)
  | [] => [(k, v)]
  | (k', v') :: rest => if k = k' then (k, v) :: rest else (k', v') :: put k v rest

/-- Storing a value keeps the keys in their order; a new key is appended to them. -/
theorem keys_put (k : α) (v : β) (l : List (α × β)) :
    (put k v l).map (·.1) = if k ∈ l.map (·.1) then l.map (·.1) else l.map (·.1) ++ [k] := by
  induction l with
  | nil => rfl
  | cons p rest ih =>
    by_cases h : k = p.1
    · simp [put, h]
    · simp only [put, h, if_false, List.map_cons, ih, List.mem_cons, false_or]
      split <;> rfl

/-- Storing a value leaves no key repeated. -/
theorem nodup_keys_put {k : α} {v : β} {l : List (α × β)} (h : (l.map (·.1)).Nodup) :
    ((put k v l).map (·.1)).Nodup := by
  rw [keys_put]
  split
  · exact h
  · rename_i hk
    refine List.nodup_append.2 ⟨h, List.nodup_cons.2 ⟨List.not_mem_nil, .nil⟩, fun a ha b hb => ?_⟩
    rw [List.mem_singleton.1 hb]
    exact fun e => hk (e ▸ ha)

/-- The stored value is found under its key, and under any other key what was there before. -/
theorem get?_put (k k' : α) (v : β) (l : List (α × β)) :
    get? k' (put k v l) = if k' = k then some v else get? k' l := by
  induction l with
  | nil => rfl
  | cons p rest ih =>
    obtain ⟨q, w⟩ := p
    by_cases h : k = q
    · subst h
      by_cases hk : k' = k <;> simp [put, get?, hk]
    · by_cases hq : k' = q
      · subst hq
        simp [put, get?, h, Ne.symm h]
      · simp [put, get?, h, hq, ih]

end Listed

/-- A map that lists its entries in the order in which their keys were first stored. -/
structure Listing (α : Type u) (β : Type v) where
  /-- The entries in order. -/
  entries : List (α × β)
  /-- No key is listed twice. -/
  nodup : (entries.map (·.1)).Nodup

namespace Listing

/-- The listing without entries. -/
def empty : Listing α β := ⟨[], .nil⟩

/-- The empty listing. -/
instance : EmptyCollection (Listing α β) := ⟨⟨[], .nil⟩⟩

/-- There is a listing: the empty one. -/
instance : Inhabited (Listing α β) := ⟨∅⟩

/-- Listings are equal if their pairs are. -/
instance [DecidableEq β] : DecidableEq (Listing α β) := fun a b =>
  if h : a.entries = b.entries then
    isTrue (by cases a; cases b; cases h; rfl)
  else
    isFalse fun e => h (by rw [e])

/-- The value under a key. -/
def get? (l : Listing α β) (k : α) : Option β := Listed.get? k l.entries

/-- Whether the listing has an entry under the key. -/
def contains (l : Listing α β) (k : α) : Bool := (l.get? k).isSome

/-- The keys in order. -/
def keys (l : Listing α β) : List α := l.entries.map (·.1)

/-- The values in order. -/
def values (l : Listing α β) : List β := l.entries.map (·.2)

/-- The number of entries. -/
def size (l : Listing α β) : Nat := l.entries.length

/-- Stores a value in the place of the one under the same key, or at the end. -/
def put (l : Listing α β) (k : α) (v : β) : Listing α β :=
  ⟨Listed.put k v l.entries, Listed.nodup_keys_put l.nodup⟩

/-- Stores the pairs one after the other. -/
def putMany (l : Listing α β) (pairs : List (α × β)) : Listing α β :=
  pairs.foldl (fun l p => l.put p.1 p.2) l

/-- The stored value is found under its key, and under any other key what was there before. -/
theorem get?_put (l : Listing α β) (k : α) (v : β) (k' : α) :
    (l.put k v).get? k' = if k' = k then some v else l.get? k' :=
  Listed.get?_put k k' v l.entries

end Listing

end FlatRecord
