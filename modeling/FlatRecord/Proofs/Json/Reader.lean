import FlatRecord.Json.Reader
import FlatRecord.Proofs.Record.Objects

/-!
# The values that are read

All objects in a value that was read list their names in order, whatever the order and the repetitions
in the text (`ordered_of_read?`). So what is shown of ordered records holds of every record that comes
from a text (`ordered_ofRecord_of_read?`).
-/

namespace FlatRecord.Json

/-- The object of a map with ordered values is ordered. -/
theorem ordered_ofRecord {r : Record} (h : ∀ name v, r.get? name = some v → v.Ordered) :
    (ofRecord r).Ordered := by
  refine ⟨r.sorted, orderedFields_iff.2 fun field hfield => ?_⟩
  exact h field.1 field.2 ((SortedMap.get?_eq_some_iff r).2 hfield)

/-- Fields with ordered values make an ordered object, with one field for each name. -/
theorem ordered_ofRecord_ofList {fields : List (String × Json)}
    (h : ∀ field ∈ fields, field.2.Ordered) : (ofRecord (.ofList fields)).Ordered := by
  refine ordered_ofRecord fun name v hv => ?_
  have hmem : (name, v) ∈ fields := SortedMap.mem_of_get?_ofList hv
  exact h (name, v) hmem

/-- A number is ordered, having no objects in it. -/
theorem ordered_of_ofNumber? {cs : List Char} {v : Json} (h : ofNumber? cs = some v) : v.Ordered := by
  unfold ofNumber? at h
  dsimp only at h
  split at h
  · cases h
    trivial
  · obtain ⟨x, -, rfl⟩ := Option.map_eq_some_iff.1 h
    trivial

mutual

/-- The value that a document stands for is ordered. -/
theorem ordered_of_ofDocument? :
    ∀ (d : Document) {v : Json}, ofDocument? d = some v → v.Ordered
  | .null, _, h => by
    cases h
    trivial
  | .bool _, _, h => by
    cases h
    trivial
  | .number _, _, h => ordered_of_ofNumber? h
  | .quoted _, _, h => by
    obtain ⟨cs, -, rfl⟩ := Option.map_eq_some_iff.1 h
    trivial
  | .list items, _, h => by
    obtain ⟨values, hvalues, rfl⟩ := Option.map_eq_some_iff.1 h
    exact orderedItems_iff.2 (ordered_of_ofItems? items hvalues)
  | .object fields, _, h => by
    -- The names are put in order when the fields are gathered into a record.
    obtain ⟨values, hvalues, rfl⟩ := Option.map_eq_some_iff.1 h
    exact ordered_ofRecord_ofList (ordered_of_ofFields? fields hvalues)

/-- The values of the items of a list are ordered. -/
theorem ordered_of_ofItems? :
    ∀ (items : List Document) {values : List Json}, ofItems? items = some values →
      ∀ v ∈ values, v.Ordered
  | [], _, h => by
    cases h
    exact fun v hv => absurd hv List.not_mem_nil
  | d :: rest, _, h => by
    unfold ofItems? at h
    split at h
    · rename_i x xs hx hxs
      cases h
      exact List.forall_mem_cons.2 ⟨ordered_of_ofDocument? d hx, ordered_of_ofItems? rest hxs⟩
    · cases h

/-- The values of the fields of an object are ordered. -/
theorem ordered_of_ofFields? :
    ∀ (fields : List (List Char × Document)) {values : List (String × Json)},
      ofFields? fields = some values → ∀ field ∈ values, field.2.Ordered
  | [], _, h => by
    cases h
    exact fun field hfield => absurd hfield List.not_mem_nil
  | (_, d) :: rest, _, h => by
    unfold ofFields? at h
    split at h
    · rename_i n x xs _ hx hxs
      cases h
      exact List.forall_mem_cons.2 ⟨ordered_of_ofDocument? d hx, ordered_of_ofFields? rest hxs⟩
    · cases h

end

/-- A value that was read is ordered. -/
theorem ordered_of_read? {s : String} {v : Json} (h : read? s = some v) : v.Ordered := by
  obtain ⟨d, -, hd⟩ := Option.bind_eq_some_iff.1 h
  exact ordered_of_ofDocument? d hd

/-- The record of an object that was read is ordered. -/
theorem ordered_ofRecord_of_read? {s : String} {fields : List (String × Json)}
    (h : read? s = some (obj fields)) : (ofRecord (.ofList fields)).Ordered :=
  ordered_ofRecord_ofList (orderedFields_iff.1 (ordered_of_read? h).2)

end FlatRecord.Json
