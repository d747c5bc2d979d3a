import FlatRecord.Proofs.Record.Objects
import FlatRecord.Proofs.Validation.ErrorTree

/-!
# What pruning leaves

Pruning takes from an error tree what holds no message and nothing else (`Record.prune_keeps_messages`).
Each list with a message is found under the key under which it was before, and under no other; nothing
empty is left but the objects that keep the positions in a list with a message; and a pruned tree stays as
it is when it is pruned again.

The first of these holds of every ordered value and the last of every value, since pruning a value prunes
its fields or its items or leaves it alone (`prune_cases`). The second holds of error trees
(`Json.IsErrors`) only: a list without objects is left alone with the empty lists that may be in it.
-/

namespace FlatRecord

namespace Json

variable {v v' : Json} {path : List Segment} {texts : List String}

/-! ## Pruning one value -/

/-- Pruning keeps the fields of an object that have something left. -/
theorem pruneFields_eq_filterMap (fields : List (String × Json)) :
    pruneFields fields = fields.filterMap fun field => field.2.prune.map fun kept => (field.1, kept) := by
  induction fields with
  | nil => rfl
  | cons field rest ih =>
    obtain ⟨name, v⟩ := field
    rw [pruneFields, List.filterMap_cons, ih]
    cases v.prune with
    | none => rfl
    | some kept => rfl

/-- The fields that are left are those with something left of their value. -/
theorem mem_pruneFields_iff {fields : List (String × Json)} {name : String} :
    (name, v') ∈ pruneFields fields ↔ ∃ v, (name, v) ∈ fields ∧ v.prune = some v' := by
  rw [pruneFields_eq_filterMap, List.mem_filterMap]
  constructor
  · rintro ⟨⟨first, v⟩, hmem, hkept⟩
    obtain ⟨kept, hprune, he⟩ := Option.map_eq_some_iff.1 hkept
    cases he
    exact ⟨v, hmem, hprune⟩
  · rintro ⟨v, hmem, hprune⟩
    refine ⟨(name, v), hmem, ?_⟩
    rw [hprune, Option.map_some]

/-- An object stays one when it is pruned as an item of a list. -/
theorem exists_getD_prune_eq_obj (fields : List (String × Json)) :
    ∃ fields', (obj fields).prune.getD (obj []) = obj fields' := by
  rw [prune_obj]
  split
  · exact ⟨[], rfl⟩
  · exact ⟨pruneFields fields, rfl⟩

/-- A list with objects has some when its items are pruned. -/
theorem any_isObject_pruneItems {items : List Json} (h : items.any isObject = true) :
    (pruneItems items).any isObject = true := by
  obtain ⟨item, hitem, hobject⟩ := List.any_eq_true.1 h
  obtain ⟨fields, rfl⟩ := exists_eq_obj hobject
  obtain ⟨fields', hfields'⟩ := exists_getD_prune_eq_obj fields
  rw [pruneItems_eq_map]
  exact List.any_eq_true.2 ⟨obj fields', List.mem_map.2 ⟨_, hitem, hfields'⟩, rfl⟩

/-- If something is left of a value, it is an object with some of its fields left, or a list with objects
in which something is left, or it is left as it is. -/
theorem prune_cases (h : v.prune = some v') :
    (∃ fields, v = obj fields ∧ pruneFields fields ≠ [] ∧ v' = obj (pruneFields fields)) ∨
    (∃ items, v = arr items ∧ items.any isObject = true ∧
      ¬ (pruneItems items).all isEmptyObject = true ∧ v' = arr (pruneItems items)) ∨ v' = v := by
  cases v with
  -- An object is dropped when no field is left, and otherwise has the fields that are.
  | obj fields =>
    rw [prune_obj] at h
    by_cases hnil : pruneFields fields = []
    · rw [if_pos hnil] at h
      cases h
    · rw [if_neg hnil] at h
      exact .inl ⟨fields, rfl, hnil, (Option.some.inj h).symm⟩
  -- A list of objects is dropped when none of them has anything left; other lists only when they are empty.
  | arr items =>
    cases hobject : items.any isObject with
    | true =>
      rw [prune_arr hobject] at h
      by_cases hall : (pruneItems items).all isEmptyObject = true
      · rw [if_pos hall] at h
        cases h
      · rw [if_neg hall] at h
        exact .inr (.inl ⟨items, rfl, hobject, hall, (Option.some.inj h).symm⟩)
    | false =>
      rw [prune_arr_values hobject] at h
      split at h
      · cases h
      · exact .inr (.inr (Option.some.inj h).symm)
  | _ => exact .inr (.inr (Option.some.inj h).symm)

mutual

/-- What is left of a value stays as it is. -/
theorem prune_prune : ∀ v v' : Json, v.prune = some v' → v'.prune = some v'
  | obj fields, v', h => by
    rcases prune_cases h with ⟨_, ⟨⟩, hne, rfl⟩ | ⟨_, ⟨⟩, _⟩ | rfl
    · rw [prune_obj, pruneFields_pruneFields fields, if_neg hne]
    · exact h
  | arr items, v', h => by
    rcases prune_cases h with ⟨_, ⟨⟩, _⟩ | ⟨_, ⟨⟩, hobject, hall, rfl⟩ | rfl
    · rw [prune_arr (any_isObject_pruneItems hobject), pruneItems_pruneItems items, if_neg hall]
    · exact h
  | null, _, h => by cases h; rfl
  | bool _, _, h => by cases h; rfl
  | int _, _, h => by cases h; rfl
  | float _, _, h => by cases h; rfl
  | str _, _, h => by cases h; rfl

/-- The fields that are left stay as they are. -/
theorem pruneFields_pruneFields : ∀ fields, pruneFields (pruneFields fields) = pruneFields fields
  | [] => rfl
  | (name, v) :: rest => by
    rw [pruneFields]
    cases h : v.prune with
    | none => exact pruneFields_pruneFields rest
    | some kept =>
      show pruneFields ((name, kept) :: pruneFields rest) = (name, kept) :: pruneFields rest
      rw [pruneFields, prune_prune v kept h, pruneFields_pruneFields rest]

/-- Pruned items stay as they are. -/
theorem pruneItems_pruneItems : ∀ items, pruneItems (pruneItems items) = pruneItems items
  | [] => rfl
  | v :: rest => by
    rw [pruneItems, pruneItems, pruneItems_pruneItems rest]
    cases h : v.prune with
    | none => rfl
    | some kept => rw [Option.getD_some, prune_prune v kept h, Option.getD_some]

end

/-! ## Paths in what is left -/

/-- Of an ordered object the value that is left under a name is what is left of the value under it. -/
theorem exists_get?_of_pruneFields {fields : List (String × Json)} (h : Ascending.Sorted fields)
    {name : String} (hget : Ascending.get? name (pruneFields fields) = some v') :
    ∃ v, Ascending.get? name fields = some v ∧ (name, v) ∈ fields ∧ v.prune = some v' := by
  have hpruned : Ascending.Sorted (pruneFields fields) :=
    h.of_map_fst_sublist (map_fst_pruneFields_sublist fields)
  obtain ⟨v, hmem, hprune⟩ := mem_pruneFields_iff.1 ((Ascending.get?_eq_some_iff hpruned).1 hget)
  exact ⟨v, (Ascending.get?_eq_some_iff h).2 hmem, hmem, hprune⟩

/-- The texts that are found in what is left of a value were found at the same path before. -/
theorem at?_of_prune (hv : v.Ordered) (hprune : v.prune = some v')
    (h : v'.at? path = some (ofStrings texts)) : v.at? path = some (ofStrings texts) := by
  induction path generalizing v v' with
  | nil =>
    rcases prune_cases hprune with ⟨fields, -, -, rfl⟩ | ⟨items, -, hobject, -, rfl⟩ | rfl
    · cases h
    · -- There is an object among the items still, and no text is one.
      have hitems : pruneItems items = texts.map str := arr.inj (Option.some.inj h)
      have hany := any_isObject_pruneItems hobject
      rw [hitems, List.any_map] at hany
      obtain ⟨text, -, htext⟩ := List.any_eq_true.1 hany
      cases htext
    · exact h
  | cons s path ih =>
    rcases exists_of_at?_cons h with
      ⟨i, items', x', rfl, rfl, hx', hfound⟩ | ⟨hs, fields', x', rfl, hx', hfound⟩
    · -- A step into a list: the item at the position, of which something is left.
      rcases prune_cases hprune with ⟨fields, -, -, he⟩ | ⟨items, rfl, -, -, he⟩ | rfl
      · cases he
      · cases he
        rw [pruneItems_eq_map, List.getElem?_map] at hx'
        obtain ⟨x, hx, hx'⟩ := Option.map_eq_some_iff.1 hx'
        -- No path leads through the empty object that keeps the position of an item.
        cases hitem : x.prune with
        | none =>
          rw [hitem, Option.getD_none] at hx'
          rw [← hx'] at hfound
          cases isEmptyObject_eq_false hfound rfl
        | some kept =>
          rw [hitem, Option.getD_some] at hx'
          have hordered : x.Ordered := orderedItems_iff.1 hv x (List.mem_of_getElem? hx)
          rw [at?_index, hx, Option.bind_some]
          exact ih hordered hitem (hx' ▸ hfound)
      · exact h
    · -- A step into an object: the field of the name, which is one of those left.
      rcases prune_cases hprune with ⟨fields, rfl, -, he⟩ | ⟨items, -, -, -, he⟩ | rfl
      · cases he
        obtain ⟨x, hx, hmem, hfield⟩ := exists_get?_of_pruneFields hv.1 hx'
        rw [at?_name hs, hx, Option.bind_some]
        exact ih (orderedFields_iff.1 hv.2 _ hmem) hfield hfound
      · cases he
      · exact h

/-! ## Error trees -/

/-- What stands under a name in an error tree: a list of messages, an object of such values, or a list of
such objects. -/
inductive IsErrors : Json → Prop where
  /-- The messages of a value. -/
  | messages (texts : List String) : IsErrors (ofStrings texts)
  /-- The errors of an object. -/
  | object {fields : List (String × Json)} (hfields : ∀ field ∈ fields, IsErrors field.2) :
    IsErrors (obj fields)
  /-- The errors of the objects in a list. -/
  | list {objects : List (List (String × Json))} (hne : objects ≠ [])
    (hobjects : ∀ fields ∈ objects, IsErrors (obj fields)) : IsErrors (arr (objects.map obj))

/-- What is at a path of a value is not empty, unless it is an object in a list with one that is not
empty. -/
def FilledAt (v : Json) (path : List Segment) : Prop :=
  ∀ x, v.at? path = some x → x ≠ arr [] ∧
    (x = obj [] → ∃ (front : List Segment) (i : Nat) (items : List Json) (fields : List (String × Json)),
      path = front ++ [.index i] ∧ v.at? front = some (arr items) ∧ obj fields ∈ items ∧ fields ≠ [])

/-- A value that is neither an empty list nor an empty object is filled at its root. -/
theorem filledAt_nil (harr : v ≠ arr []) (hobj : v ≠ obj []) : v.FilledAt [] := by
  intro x hx
  cases hx
  exact ⟨harr, fun he => absurd he hobj⟩

/-- A step from a value goes before a path in the value to which the step leads. -/
theorem FilledAt.cons {s : Segment} {y : Json} (hy : y.FilledAt path)
    (hstep : ∀ p, v.at? (s :: p) = y.at? p) : v.FilledAt (s :: path) := by
  intro x hx
  rw [hstep] at hx
  obtain ⟨harr, hobj⟩ := hy x hx
  refine ⟨harr, fun he => ?_⟩
  obtain ⟨front, i, items, fields, rfl, hfront, hmem, hne⟩ := hobj he
  exact ⟨s :: front, i, items, fields, rfl, (hstep front).trans hfront, hmem, hne⟩

/-- The paths below what is left of an ordered object go through what is left of its values. -/
theorem filledAt_pruneFields {fields : List (String × Json)} (hsorted : Ascending.Sorted fields)
    (h : ∀ field ∈ fields, ∀ v', field.2.prune = some v' → v'.FilledAt path) (s : Segment) :
    (obj (pruneFields fields)).FilledAt (s :: path) := by
  intro x hx
  -- No position is found in an object.
  rcases exists_of_at?_cons hx with ⟨_, _, _, -, ⟨⟩, -⟩ | ⟨hs, _, y, ⟨⟩, hy, -⟩
  obtain ⟨v, -, hmem, hprune⟩ := exists_get?_of_pruneFields hsorted hy
  refine (h _ hmem y hprune).cons (fun p => ?_) x hx
  rw [at?_name hs, hy, Option.bind_some]

/-- The paths below what is left of a list of objects lead to what is left of the objects, or to an empty
object beside one that is not empty. -/
theorem filledAt_pruneItems {objects : List (List (String × Json))}
    (hleft : ¬ (pruneItems (objects.map obj)).all isEmptyObject = true)
    (h : ∀ fields ∈ objects, ∀ v', (obj fields).prune = some v' → v'.FilledAt path) (s : Segment) :
    (arr (pruneItems (objects.map obj))).FilledAt (s :: path) := by
  intro x hx
  cases s with
  | index i =>
    obtain ⟨_, y, ⟨⟩, hy, hbelow⟩ := exists_of_at?_index hx
    have hstep : ∀ p, (arr (pruneItems (objects.map obj))).at? (.index i :: p) = y.at? p := by
      intro p
      rw [at?_index, hy, Option.bind_some]
    rw [pruneItems_eq_map, List.getElem?_map, List.getElem?_map] at hy
    obtain ⟨_, hfields, rfl⟩ := Option.map_eq_some_iff.1 hy
    obtain ⟨fields, hobject, rfl⟩ := Option.map_eq_some_iff.1 hfields
    cases hprune : (obj fields).prune with
    -- What is left of the object at the position.
    | some kept =>
      rw [hprune, Option.getD_some] at hstep
      exact (h fields (List.mem_of_getElem? hobject) kept hprune).cons hstep x hx
    | none =>
      rw [hprune, Option.getD_none] at hbelow
      cases path with
      | cons s' path => cases s' <;> cases hbelow
      | nil =>
        cases hbelow
        -- Some item is left with a field, as the list is.
        obtain ⟨item, hitem, hfilled⟩ := List.all_eq_false.1 (Bool.eq_false_iff.2 hleft)
        have hmem := hitem
        rw [pruneItems_eq_map, List.map_map] at hmem
        obtain ⟨inner, -, hinner⟩ := List.mem_map.1 hmem
        obtain ⟨fields', hfields'⟩ := exists_getD_prune_eq_obj inner
        cases hinner.symm.trans hfields'
        refine ⟨nofun, fun _ => ⟨[], i, _, fields', rfl, rfl, hitem, ?_⟩⟩
        rintro rfl
        exact hfilled rfl
  | _ => cases hx

/-- Nothing in what is left of the errors of a value is empty, but objects in lists with one that is not
empty. -/
theorem IsErrors.filledAt (hv : v.IsErrors) (hordered : v.Ordered) (hprune : v.prune = some v') :
    v'.FilledAt path := by
  induction hv generalizing v' path with
  -- Messages are dropped if there are none, and are as they were otherwise.
  | messages texts =>
    by_cases hnil : texts = []
    · rw [hnil] at hprune
      cases hprune
    · rw [prune_ofStrings hnil] at hprune
      cases hprune
      cases path with
      | nil => exact filledAt_nil (fun he => hnil (List.map_eq_nil_iff.1 (arr.inj he))) nofun
      | cons s path =>
        -- A step into the list leads to a text.
        intro x hx
        cases s with
        | index i =>
          obtain ⟨_, y, ⟨⟩, hy, hbelow⟩ := exists_of_at?_index hx
          rw [List.getElem?_map] at hy
          obtain ⟨text, -, rfl⟩ := Option.map_eq_some_iff.1 hy
          -- Below a text nothing is found.
          cases path with
          | nil =>
            cases hbelow
            exact ⟨nofun, nofun⟩
          | cons s' path => cases s' <;> cases hbelow
        | _ => cases hx
  -- What is left of an object has a field.
  | @object fields _ ih =>
    rw [prune_obj] at hprune
    split at hprune
    · cases hprune
    · rename_i hne
      cases hprune
      cases path with
      | nil => exact filledAt_nil nofun fun he => hne (obj.inj he)
      | cons s path =>
        refine filledAt_pruneFields hordered.1 (fun field hfield v' hv' => ?_) s
        exact ih field hfield (orderedFields_iff.1 hordered.2 field hfield) hv'
  -- What is left of a list has an object with a field.
  | @list objects hne _ ih =>
    have hobject : (objects.map obj).any isObject = true := by
      obtain ⟨fields, hfields⟩ := List.exists_mem_of_ne_nil objects hne
      exact List.any_eq_true.2 ⟨obj fields, List.mem_map_of_mem hfields, rfl⟩
    rw [prune_arr hobject] at hprune
    split at hprune
    · cases hprune
    · rename_i hleft
      cases hprune
      cases path with
      | nil =>
        refine filledAt_nil (fun he => hleft ?_) nofun
        rw [arr.inj he]
        rfl
      | cons s path =>
        refine filledAt_pruneItems hleft (fun fields hfields v' hv' => ?_) s
        exact ih fields hfields (orderedItems_iff.1 hordered _ (List.mem_map_of_mem hfields)) hv'

end Json

/-! ## Pruning an error tree -/

namespace Record

variable {t : Record}

/-- What is left of a record as a value. -/
theorem ofRecord_prune (t : Record) : Json.ofRecord t.prune = .obj (Json.pruneFields t.entries) := by
  unfold Json.ofRecord
  rw [t.entries_prune]

/-- The texts that are found in a pruned record were found under the same key before. -/
theorem at?_of_prune (hordered : (Json.ofRecord t).Ordered) {key : Key} {texts : List String}
    (h : t.prune.at? key = some (.ofStrings texts)) : t.at? key = some (.ofStrings texts) := by
  unfold Record.at? at h ⊢
  rw [ofRecord_prune] at h
  by_cases hnil : Json.pruneFields t.entries = []
  · rw [hnil] at h
    cases Json.isEmptyObject_eq_false h rfl
  · refine Json.at?_of_prune hordered ?_ h
    rw [Json.ofRecord, Json.prune_obj, if_neg hnil]

/-- A pruned record stays as it is. -/
theorem prune_prune (t : Record) : t.prune.prune = t.prune := by
  refine SortedMap.eq_of_entries_eq ?_
  rw [entries_prune, entries_prune, Json.pruneFields_pruneFields]

/-- Pruning an error tree keeps every message in its place: a list with a message is found under a key
afterwards exactly when it was before. Below the root nothing empty is left, but for the objects in lists
that have one that is not empty; and a pruned tree stays as it is when it is pruned again. -/
theorem prune_keeps_messages (ht : (Json.ofRecord t).IsErrors) (hordered : (Json.ofRecord t).Ordered) :
    (∀ (key : Key) (texts : List String), texts ≠ [] →
      (t.prune.at? key = some (.ofStrings texts) ↔ t.at? key = some (.ofStrings texts))) ∧
    (∀ key : Key, key ≠ .root → (Json.ofRecord t.prune).FilledAt key.segments) ∧
    t.prune.prune = t.prune := by
  refine ⟨fun key texts hne => ⟨at?_of_prune hordered, at?_prune hne⟩, fun key hkey => ?_,
    t.prune_prune⟩
  obtain ⟨segments⟩ := key
  cases segments with
  | nil => exact absurd rfl hkey
  | cons s path =>
    rw [ofRecord_prune]
    refine Json.filledAt_pruneFields t.sorted (fun field hfield v' hv' => ?_) s
    have hfieldOrdered := Json.orderedFields_iff.1 hordered.2 field hfield
    -- The record is an object, so what it holds is the errors of its fields.
    generalize he : Json.ofRecord t = v at ht
    cases ht with
    | object hfields =>
      cases he
      exact (hfields field hfield).filledAt hfieldOrdered hv'
    | _ => cases he

/-- Errors on several levels: of values, of objects in lists in lists, and in all of them some without a
message. -/
def branching : Record where
  entries := [("a", .ofStrings ["x", "y"]), ("b", .ofStrings []),
    ("c", .arr [.obj [("d", .ofStrings [])],
      .obj [("d", .ofStrings ["z"]), ("e", .arr [.obj [("f", .ofStrings [])]])], .obj []]),
    ("g", .arr [.obj [("h", .ofStrings [])]]),
    ("i", .obj [("j", .ofStrings []), ("k", .ofStrings ["x"])])]
  sorted := by decide

/-- Branches without messages are dropped, items beside a message are only emptied, and the messages stay in
place. -/
theorem prune_keeps_messages_branching :
    (Json.ofRecord branching).IsErrors ∧ (Json.ofRecord branching).Ordered ∧
    branching.prune.entries = [("a", .ofStrings ["x", "y"]),
      ("c", .arr [.obj [], .obj [("d", .ofStrings ["z"])], .obj []]),
      ("i", .obj [("k", .ofStrings ["x"])])] ∧
    (∀ (key : Key) (texts : List String), texts ≠ [] →
      (branching.prune.at? key = some (.ofStrings texts) ↔
        branching.at? key = some (.ofStrings texts))) ∧
    (∀ key : Key, key ≠ .root → (Json.ofRecord branching.prune).FilledAt key.segments) ∧
    branching.prune.prune = branching.prune := by
  -- An object with one message and a list of one such object, as they occur below.
  have hone : ∀ name texts, Json.IsErrors (.obj [(name, .ofStrings texts)]) :=
    fun name texts => .object (List.forall_mem_singleton.2 (.messages texts))
  have hlist : ∀ name texts, Json.IsErrors (.arr [.obj [(name, .ofStrings texts)]]) :=
    fun name texts => @Json.IsErrors.list [[(name, .ofStrings texts)]] nofun
      (List.forall_mem_singleton.2 (hone name texts))
  have hlists : Json.IsErrors (.arr [.obj [("d", .ofStrings [])],
      .obj [("d", .ofStrings ["z"]), ("e", .arr [.obj [("f", .ofStrings [])]])], .obj []]) := by
    refine @Json.IsErrors.list [[("d", .ofStrings [])],
      [("d", .ofStrings ["z"]), ("e", .arr [.obj [("f", .ofStrings [])]])], []] nofun ?_
    simp only [List.forall_mem_cons]
    refine ⟨hone _ _, .object ?_, .object nofun, nofun⟩
    simp only [List.forall_mem_cons]
    exact ⟨.messages _, hlist _ _, nofun⟩
  have ht : (Json.ofRecord branching).IsErrors := by
    refine .object ?_
    simp only [branching, List.forall_mem_cons]
    refine ⟨.messages _, .messages _, hlists, hlist _ _, .object ?_, nofun⟩
    simp only [List.forall_mem_cons]
    exact ⟨.messages _, .messages _, nofun⟩
  have hordered : (Json.ofRecord branching).Ordered := by decide
  exact ⟨ht, hordered, rfl, prune_keeps_messages ht hordered⟩

end Record

end FlatRecord
