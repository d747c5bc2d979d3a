import FlatRecord.SortedMap.Ascending

/-!
# Maps in ascending key order

A `SortedMap` is a list of key-value pairs whose keys ascend strictly. Records, flat records,
message tables and expanded schemas are all read and shown in key order, so the order is part of
the type: two maps that answer every look-up alike are equal (`ext_get?`).

`insert`, `erase` and `insertIfNew` are instances of `alter`, and `get?_alter` says what it does to
every look-up.
-/

namespace FlatRecord

universe u v w

variable {α : Type u} {β : Type v} {γ : Type w}

/-- A map whose entries are listed in strictly ascending key order. -/
structure SortedMap (α : Type u) (β : Type v) [Ord α] where
  /-- The entries in key order. -/
  entries : List (α × β)
  /-- The keys ascend strictly, so no key is listed twice. -/
  sorted : Ascending.Sorted entries

namespace SortedMap

variable [Ord α]

/-- The map with no entry. -/
def empty : SortedMap α β := ⟨[], .nil⟩

/-- The empty map. -/
instance : EmptyCollection (SortedMap α β) := ⟨empty⟩

/-- There is a map: the empty one. -/
instance : Inhabited (SortedMap α β) := ⟨empty⟩

/-- Maps are equal if their pairs are. -/
instance [DecidableEq α] [DecidableEq β] : DecidableEq (SortedMap α β) := fun a b =>
  if h : a.entries = b.entries then
    isTrue (by cases a; cases b; cases h; rfl)
  else
    isFalse fun e => h (by rw [e])

/-- The value under a key. -/
def get? (m : SortedMap α β) (k : α) : Option β := Ascending.get? k m.entries

/-- Whether the map has an entry under the key. -/
def contains (m : SortedMap α β) (k : α) : Bool := (m.get? k).isSome

/-- The keys in ascending order. -/
def keys (m : SortedMap α β) : List α := m.entries.map (·.1)

/-- The values in the order of their keys. -/
def values (m : SortedMap α β) : List β := m.entries.map (·.2)

/-- The number of entries. -/
def size (m : SortedMap α β) : Nat := m.entries.length

/-- Whether the map has no entry. -/
def isEmpty (m : SortedMap α β) : Bool := m.entries.isEmpty

/-- The entries that satisfy a test. -/
def filter (p : α → β → Bool) (m : SortedMap α β) : SortedMap α β :=
  ⟨m.entries.filter fun e => p e.1 e.2, m.sorted.sublist List.filter_sublist⟩

/-- Applies a function to every value. -/
def map (f : β → γ) (m : SortedMap α β) : SortedMap α γ :=
  ⟨m.entries.map fun e => (e.1, f e.2), by
    exact List.pairwise_map.2 m.sorted⟩

variable [Std.TransOrd α] [Std.LawfulEqOrd α]

/-- Replaces the value under `k` by what `f` makes of it; `none` stands for no entry. -/
def alter (m : SortedMap α β) (k : α) (f : Option β → Option β) : SortedMap α β :=
  ⟨Ascending.alter k f m.entries, Ascending.sorted_alter m.sorted⟩

/-- Stores a value under a key, in place of the one there. -/
def insert (m : SortedMap α β) (k : α) (v : β) : SortedMap α β := m.alter k fun _ => some v

/-- Removes the entry under a key. -/
def erase (m : SortedMap α β) (k : α) : SortedMap α β := m.alter k fun _ => none

/-- Stores a value under a key that has none. -/
def insertIfNew (m : SortedMap α β) (k : α) (v : β) : SortedMap α β :=
  m.alter k fun old => some (old.getD v)

/-- Stores the pairs one after the other, so that the last value given for a key stays. -/
def insertMany (m : SortedMap α β) (l : List (α × β)) : SortedMap α β :=
  l.foldl (fun m p => m.insert p.1 p.2) m

/-- The map of a list of pairs; the last value given for a key stays. -/
def ofList (l : List (α × β)) : SortedMap α β := insertMany ∅ l

/-! ## Look-ups after each operation -/

/-- An alteration shows under its key alone. -/
theorem get?_alter (m : SortedMap α β) (k : α) (f : Option β → Option β) (k' : α) :
    (m.alter k f).get? k' = if compare k' k = .eq then f (m.get? k) else m.get? k' :=
  Ascending.get?_alter m.sorted k'

omit [Std.TransOrd α] [Std.LawfulEqOrd α] in
/-- The empty map has nothing under any key. -/
@[simp] theorem get?_empty (k : α) : (∅ : SortedMap α β).get? k = none := rfl

/-- An inserted value is found under its key. -/
@[simp] theorem get?_insert_self (m : SortedMap α β) (k : α) (v : β) :
    (m.insert k v).get? k = some v := by
  simp [insert, get?_alter, Std.ReflCmp.compare_self]

/-- Inserting a value changes nothing under other keys. -/
theorem get?_insert_of_ne (m : SortedMap α β) {k k' : α} (v : β) (h : k' ≠ k) :
    (m.insert k v).get? k' = m.get? k' := by
  have hcompare : ¬ compare k' k = .eq := fun e => h (Std.LawfulEqCmp.eq_of_compare e)
  simp [insert, get?_alter, hcompare]

/-- Nothing is found under an erased key. -/
@[simp] theorem get?_erase_self (m : SortedMap α β) (k : α) : (m.erase k).get? k = none := by
  simp [erase, get?_alter, Std.ReflCmp.compare_self]

/-- Erasing a key changes nothing under other keys. -/
theorem get?_erase_of_ne (m : SortedMap α β) {k k' : α} (h : k' ≠ k) :
    (m.erase k).get? k' = m.get? k' := by
  have hcompare : ¬ compare k' k = .eq := fun e => h (Std.LawfulEqCmp.eq_of_compare e)
  simp [erase, get?_alter, hcompare]

omit [Std.TransOrd α] in
/-- What is found under the keys are the pairs of the map. -/
theorem get?_eq_some_iff (m : SortedMap α β) {k : α} {v : β} :
    m.get? k = some v ↔ (k, v) ∈ m.entries :=
  Ascending.get?_eq_some_iff m.sorted

/-- Two maps that answer every look-up alike are equal. -/
theorem ext_get? {m₁ m₂ : SortedMap α β} (h : ∀ k, m₁.get? k = m₂.get? k) : m₁ = m₂ := by
  have hentries : m₁.entries = m₂.entries := Ascending.eq_of_get?_eq m₁.sorted m₂.sorted h
  cases m₁
  cases m₂
  cases hentries
  rfl

end SortedMap

/-- A set listed in strictly ascending order. -/
abbrev SortedSet (α : Type u) [Ord α] := SortedMap α Unit

end FlatRecord
