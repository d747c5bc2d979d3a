import FlatRecord.Json
import FlatRecord.Key

/-!
# Paths into a value

`Json.at?` follows the segments of a key into a value: positions lead into lists, and the names of
fields and slots into objects. `Record.at?` does so from the top of a record.
-/

namespace FlatRecord

/-- The value at the end of a path. -/
def Json.at? : List Segment → Json → Option Json
  | [], v => some v
  | .index i :: path, .arr items => items[i]?.bind (at? path)
  | .field name :: path, .obj fields => (Ascending.get? name fields).bind (at? path)
  | .control slot :: path, .obj fields => (Ascending.get? slot.name fields).bind (at? path)
  | _ :: _, _ => none

/-- The value at a key of a record. -/
def Record.at? (r : Record) (k : Key) : Option Json := (Json.ofRecord r).at? k.segments

namespace Json

/-- A path into a list goes on in the item at its position. -/
theorem at?_index (i : Nat) (path : List Segment) (items : List Json) :
    at? (.index i :: path) (arr items) = items[i]?.bind (at? path) := rfl

/-- A segment that is no position leads to the value under its name. -/
theorem at?_name {s : Segment} (hs : s.isIndex = false) (path : List Segment)
    (fields : List (String × Json)) :
    at? (s :: path) (obj fields) = (Ascending.get? s.name fields).bind (at? path) := by
  cases s with
  | index i => cases hs
  | field name => rfl
  | control slot => rfl

/-- A path that leads on from a value with a position goes through a list. -/
theorem exists_of_at?_index {i : Nat} {path : List Segment} {v w : Json}
    (h : at? (.index i :: path) v = some w) :
    ∃ items x, v = arr items ∧ items[i]? = some x ∧ at? path x = some w := by
  cases v with
  | arr items =>
    rw [at?_index] at h
    obtain ⟨x, hx, hw⟩ := Option.bind_eq_some_iff.1 h
    exact ⟨items, x, rfl, hx, hw⟩
  | _ => cases h

/-- A path that leads on from a value with a name goes through an object. -/
theorem exists_of_at?_name {s : Segment} (hs : s.isIndex = false) {path : List Segment} {v w : Json}
    (h : at? (s :: path) v = some w) :
    ∃ fields x, v = obj fields ∧ Ascending.get? s.name fields = some x ∧ at? path x = some w := by
  cases v with
  | obj fields =>
    rw [at?_name hs] at h
    obtain ⟨x, hx, hw⟩ := Option.bind_eq_some_iff.1 h
    exact ⟨fields, x, rfl, hx, hw⟩
  -- In any other value only a position leads on.
  | _ =>
    cases s with
    | index i => cases hs
    | _ => cases h

/-- A path that leads on from a value goes into a list at a position or into an object by a name. -/
theorem exists_of_at?_cons {s : Segment} {path : List Segment} {v w : Json}
    (h : at? (s :: path) v = some w) :
    (∃ i items x, s = .index i ∧ v = arr items ∧ items[i]? = some x ∧ at? path x = some w) ∨
      (s.isIndex = false ∧
        ∃ fields x, v = obj fields ∧ Ascending.get? s.name fields = some x ∧ at? path x = some w) := by
  cases s with
  | index i =>
    obtain ⟨items, x, hv, hx, hw⟩ := exists_of_at?_index h
    exact .inl ⟨i, items, x, rfl, hv, hx, hw⟩
  | field name => exact .inr ⟨rfl, exists_of_at?_name rfl h⟩
  | control slot => exact .inr ⟨rfl, exists_of_at?_name rfl h⟩

end Json

end FlatRecord
