import FlatRecord.Proofs.Record.Nesting
import FlatRecord.Validation.ErrorTree

/-!
# What the error tree shows

The error tree is made in three steps, and a message list goes through each of them. Leaving out
shadowed entries keeps every list with a message (`get?_unshadow_eq_some_iff`), nesting puts a list
in a place of its own unless a longer key goes on from its key, and pruning keeps every path that
leads to a message (`Record.at?_prune`). `at?_tree_settled` puts the steps together.

So the error tree is empty exactly when there is no message (`Messages.Regular.tree_eq_empty_iff`),
provided that all keys are addresses and an item of a list is a key of its own only if it has a
message. An item without one would be an empty list among the objects.
-/

namespace FlatRecord

/-! ## Shadowed entries -/

namespace Messages

variable {m : Messages} {key : Key} {l : List String}

/-- The key has a message. -/
def Flagged (m : Messages) (key : Key) : Prop := ∃ l, m.get? key = some l ∧ l ≠ []

/-- The flagged keys are those with messages. -/
theorem mem_flagged_iff : key ∈ m.flagged ↔ m.Flagged key := by
  unfold flagged Flagged
  rw [List.mem_map]
  constructor
  · rintro ⟨e, he, rfl⟩
    obtain ⟨hmem, hne⟩ := List.mem_filter.1 he
    refine ⟨e.2, (SortedMap.get?_eq_some_iff m).2 hmem, ?_⟩
    rwa [Bool.not_eq_true', List.isEmpty_eq_false_iff] at hne
  · rintro ⟨l, hl, hne⟩
    refine ⟨(key, l), List.mem_filter.2 ⟨(SortedMap.get?_eq_some_iff m).1 hl, ?_⟩, rfl⟩
    rwa [Bool.not_eq_true', List.isEmpty_eq_false_iff]

/-- No key above the given one has a message. -/
def Clear (m : Messages) (key : Key) : Prop :=
  ∀ above, m.Flagged above → above.segments <+: key.segments → above.segments = key.segments

/-- A list stays if it has a message or no key above its own has one. -/
theorem get?_unshadow_eq_some_iff :
    m.unshadow.get? key = some l ↔ m.get? key = some l ∧ (l ≠ [] ∨ m.Clear key) := by
  have hclear : (!m.flagged.any fun above =>
      above.length < key.length && key.startsWith above) = true ↔ m.Clear key := by
    rw [Bool.not_eq_true', List.any_eq_false]
    -- No flagged key is shorter and begins the key: one that begins it is as long, and so the key itself.
    constructor
    · intro h above habove hbegins
      have hnot := h above (mem_flagged_iff.2 habove)
      rw [Bool.and_eq_true, decide_eq_true_iff, Key.startsWith, List.isPrefixOf_iff_prefix] at hnot
      have hle : key.segments.length ≤ above.segments.length :=
        Nat.le_of_not_lt fun hlt => hnot ⟨hlt, hbegins⟩
      exact hbegins.eq_of_length_le hle
    · intro h above habove
      rw [Bool.and_eq_true, decide_eq_true_iff, Key.startsWith, List.isPrefixOf_iff_prefix]
      rintro ⟨hlt, hbegins⟩
      have heq : above.segments = key.segments := h above (mem_flagged_iff.1 habove) hbegins
      rw [Key.length, Key.length, heq] at hlt
      exact Nat.lt_irrefl _ hlt
  unfold unshadow
  rw [SortedMap.get?_filter_eq_some_iff, Bool.or_eq_true, hclear, Bool.not_eq_true',
    List.isEmpty_eq_false_iff]

/-- The values that are nested to make the error tree. -/
theorem get?_toFlat_unshadow_eq_some_iff {v : Json} : m.unshadow.toFlat.get? key = some v ↔
    ∃ l, m.get? key = some l ∧ (l ≠ [] ∨ m.Clear key) ∧ v = .ofStrings l := by
  unfold toFlat
  rw [SortedMap.get?_map, Option.map_eq_some_iff]
  constructor
  · rintro ⟨l, hl, rfl⟩
    obtain ⟨hget, hkept⟩ := get?_unshadow_eq_some_iff.1 hl
    exact ⟨l, hget, hkept, rfl⟩
  · rintro ⟨l, hget, hkept, rfl⟩
    exact ⟨l, get?_unshadow_eq_some_iff.2 ⟨hget, hkept⟩, rfl⟩

/-- A key with a message from which no flagged key goes on ends every path. -/
theorem ends_toFlat_unshadow (hkey : m.Flagged key)
    (hlast : ∀ below, m.Flagged below → key.segments <+: below.segments →
      below.segments = key.segments) : m.unshadow.toFlat.Ends key := by
  intro rest hrest
  cases hget : m.unshadow.toFlat.get? ⟨key.segments ++ rest⟩ with
  | none => rfl
  | some v =>
    obtain ⟨l, hl, hkept, -⟩ := get?_toFlat_unshadow_eq_some_iff.1 hget
    have hbegins : key.segments <+: key.segments ++ rest := List.prefix_append _ _
    -- A list below the key has a message, and then its key goes on; or it is left out.
    rcases hkept with hne | hclear
    · exact absurd (List.append_right_eq_self.1 (hlast _ ⟨l, hl, hne⟩ hbegins)) hrest
    · exact absurd (List.append_right_eq_self.1 (hclear key hkey hbegins).symm) hrest

end Messages

/-! ## Pruning -/

namespace Json

/-- An object stays if a field of it does. -/
theorem prune_obj (fields : List (String × Json)) : prune (obj fields) =
    if pruneFields fields = [] then none else some (obj (pruneFields fields)) := by
  rw [prune]
  cases pruneFields fields with
  | nil => rfl
  | cons field rest => rw [if_neg (List.cons_ne_nil field rest)]

/-- A list with objects stays, all its items in their positions, if something is left in one of
them. -/
theorem prune_arr {items : List Json} (h : items.any isObject = true) : prune (arr items) =
    if (pruneItems items).all isEmptyObject = true then none else some (arr (pruneItems items)) := by
  rw [prune, if_pos h]

/-- A list without objects stays as it is, unless it is empty. -/
theorem prune_arr_values {items : List Json} (h : items.any isObject = false) :
    prune (arr items) = if items = [] then none else some (arr items) := by
  rw [prune, h, if_neg Bool.false_ne_true]
  simp only [List.isEmpty_iff]

/-- A list of texts stays if there is a text in it. -/
theorem prune_ofStrings {texts : List String} (hne : texts ≠ []) :
    prune (ofStrings texts) = some (ofStrings texts) := by
  have hobject : (texts.map str).any isObject = false := by
    rw [List.any_map]
    exact List.any_eq_false.2 fun _ _ => Bool.false_ne_true
  have hitems : texts.map str ≠ [] := fun h => hne (List.map_eq_nil_iff.1 h)
  unfold ofStrings
  rw [prune_arr_values hobject, if_neg hitems]

/-- What is left of the first value with a name is found under the name. -/
theorem get?_pruneFields {fields : List (String × Json)} {name : String} {v v' : Json}
    (hget : Ascending.get? name fields = some v) (hv : v.prune = some v') :
    Ascending.get? name (pruneFields fields) = some v' := by
  induction fields with
  | nil => cases hget
  | cons field rest ih =>
    obtain ⟨first, value⟩ := field
    rw [Ascending.get?] at hget
    rw [pruneFields]
    by_cases hname : compare name first = .eq
    · -- The first field has the name, and it is left.
      rw [if_pos hname, Option.some.injEq] at hget
      rw [hget, hv]
      show Ascending.get? name ((first, v') :: pruneFields rest) = some v'
      rw [Ascending.get?, if_pos hname]
    · -- The first field has another name, whether it is left or not.
      rw [if_neg hname] at hget
      cases hvalue : value.prune with
      | none => exact ih hget
      | some kept =>
        show Ascending.get? name ((first, kept) :: pruneFields rest) = some v'
        rw [Ascending.get?, if_neg hname]
        exact ih hget

/-- Nothing is left of an object when nothing is left of its values. -/
theorem pruneFields_eq_nil {fields : List (String × Json)}
    (h : ∀ field ∈ fields, field.2.prune = none) : pruneFields fields = [] := by
  induction fields with
  | nil => rfl
  | cons field rest ih =>
    obtain ⟨hfirst, hrest⟩ := List.forall_mem_cons.1 h
    rw [pruneFields, hfirst]
    exact ih hrest

/-- Pruning keeps the items of a list in their positions. -/
theorem pruneItems_eq_map (items : List Json) :
    pruneItems items = items.map fun v => v.prune.getD (obj []) := by
  induction items with
  | nil => rfl
  | cons v rest ih => rw [pruneItems, ih, List.map_cons]

/-- No path leads through the empty object. -/
theorem isEmptyObject_eq_false {path : List Segment} {v w : Json} (h : v.at? path = some w)
    (hw : w.isEmptyObject = false) : v.isEmptyObject = false := by
  cases hv : v.isEmptyObject with
  | false => rfl
  | true =>
    have hobj : v = obj [] := by
      unfold isEmptyObject at hv
      -- Only an object without fields is the empty object.
      split at hv
      · rfl
      · cases hv
    subst hobj
    cases path with
    | nil =>
      cases h
      exact absurd hw Bool.noConfusion
    | cons s path => cases s <;> cases h

/-- Pruning keeps every path that leads to a text. -/
theorem at?_prune {path : List Segment} {v : Json} {texts : List String} (hne : texts ≠ [])
    (h : v.at? path = some (ofStrings texts)) :
    ∃ v', v.prune = some v' ∧ v'.at? path = some (ofStrings texts) := by
  induction path generalizing v with
  | nil =>
    cases h
    exact ⟨ofStrings texts, prune_ofStrings hne, rfl⟩
  | cons s path ih =>
    rcases exists_of_at?_cons h with
      ⟨i, items, x, rfl, rfl, hx, hbelow⟩ | ⟨hs, fields, x, rfl, hx, hbelow⟩
    · -- The path goes into a list at a position.
      obtain ⟨x', hprune, hfound⟩ := ih hbelow
      cases hobject : items.any isObject with
      | true =>
        -- The item keeps its position, and as something is left of it so is the list.
        have hitem : (pruneItems items)[i]? = some x' := by
          rw [pruneItems_eq_map, List.getElem?_map, hx, Option.map_some, hprune, Option.getD_some]
        have hkept : (pruneItems items).all isEmptyObject ≠ true := by
          intro hall
          have hempty : x'.isEmptyObject = true :=
            List.all_eq_true.1 hall x' (List.mem_of_getElem? hitem)
          rw [isEmptyObject_eq_false hfound rfl] at hempty
          cases hempty
        refine ⟨arr (pruneItems items), ?_, ?_⟩
        · rw [prune_arr hobject, if_neg hkept]
        · rw [at?_index, hitem, Option.bind_some, hfound]
      -- A list without objects is left as it is.
      | false =>
        have hitems : items ≠ [] := List.ne_nil_of_mem (List.mem_of_getElem? hx)
        exact ⟨arr items, by rw [prune_arr_values hobject, if_neg hitems], h⟩
    · -- It goes into an object by a name, which is kept.
      obtain ⟨x', hprune, hfound⟩ := ih hbelow
      have hfield : Ascending.get? s.name (pruneFields fields) = some x' := get?_pruneFields hx hprune
      have hfields : pruneFields fields ≠ [] := by
        intro hnil
        rw [hnil] at hfield
        cases hfield
      refine ⟨obj (pruneFields fields), ?_, ?_⟩
      · rw [prune_obj, if_neg hfields]
      · rw [at?_name hs, hfield, Option.bind_some, hfound]

/-- The names that are left are some of those that were there, in their order. -/
theorem map_fst_pruneFields_sublist (fields : List (String × Json)) :
    ((pruneFields fields).map (·.1)).Sublist (fields.map (·.1)) := by
  induction fields with
  | nil => exact .slnil
  | cons field rest ih =>
    obtain ⟨name, value⟩ := field
    rw [pruneFields]
    cases value.prune with
    | none => exact ih.cons _
    | some kept => exact ih.cons_cons _

end Json

/-- What is left of a record, as its list of fields. -/
theorem Record.entries_prune (r : Record) : r.prune.entries = Json.pruneFields r.entries :=
  SortedMap.entries_ofList (r.sorted.of_map_fst_sublist (Json.map_fst_pruneFields_sublist _))

/-- Pruning a record keeps every path that leads to a text. -/
theorem Record.at?_prune {r : Record} {key : Key} {texts : List String} (hne : texts ≠ [])
    (h : r.at? key = some (.ofStrings texts)) : r.prune.at? key = some (.ofStrings texts) := by
  obtain ⟨v', hv', hfound⟩ := Json.at?_prune hne h
  rw [Json.ofRecord, Json.prune_obj] at hv'
  split at hv'
  · cases hv'
  · cases hv'
    unfold Record.at? Json.ofRecord
    rw [r.entries_prune, hfound]

/-- Nothing is left of a record when nothing is left of it as a value. -/
theorem Record.prune_eq_empty {r : Record} (h : (Json.ofRecord r).prune = none) : r.prune = ∅ := by
  rw [Json.ofRecord, Json.prune_obj] at h
  split at h
  · rename_i hfields
    refine SortedMap.eq_of_entries_eq ?_
    rw [r.entries_prune, hfields]
    rfl
  · cases h

namespace Tree

section Branch

variable {children : List (Segment × Tree)} {named : String → Prop}

/-- Nothing is left of an object in whose fields nothing is left. -/
theorem prune_toJson_object (ht : (branch children).Proper)
    (hfits : (branch children).Fits named .object)
    (hpruned : ∀ c ∈ children, (toJson c.2).prune = none) : (toJson (branch children)).prune = none := by
  have hfields : Json.pruneFields (branch children).toRecord.entries = [] := by
    refine Json.pruneFields_eq_nil fun field hfield => ?_
    have hvalue : (branch children).toRecord.get? field.1 = some field.2 :=
      (SortedMap.get?_eq_some_iff _).2 hfield
    obtain ⟨c, hc, -, hv⟩ := exists_of_get?_toRecord hvalue
    rw [hv]
    exact hpruned c hc
  rw [hfits.toJson_object ht, Json.ofRecord, Json.prune_obj, if_pos hfields]

/-- Nothing is left of a list in whose items nothing is left, when they are objects. -/
theorem prune_toJson_list (ht : (branch children).Proper) (hfits : (branch children).Fits named .list)
    (hobject : ∀ c ∈ children, find? [] c.2 = none)
    (hpruned : ∀ c ∈ children, (toJson c.2).prune = none) : (toJson (branch children)).prune = none := by
  by_cases hnil : children = []
  · rw [hnil]
    rfl
  · have hobjects : (children.map fun c => toJson c.2).any Json.isObject = true := by
      obtain ⟨⟨s, c⟩, rest, hchildren⟩ := List.exists_cons_of_ne_nil hnil
      have hc : (s, c) ∈ children := by
        rw [hchildren]
        exact List.mem_cons_self
      -- The first item is an object, so the list is pruned item by item.
      refine List.any_eq_true.2 ⟨toJson c, List.mem_map_of_mem hc, ?_⟩
      have hchild : c.Fits named .object := (hfits.of_mem_children ht hc).2
      have hproper : c.Proper := (ht.of_mem_children hc).2
      cases c with
      | leaf value => cases hobject _ hc
      | branch inner =>
        rw [hchild.toJson_object hproper]
        rfl
    have hall : (Json.pruneItems (children.map fun c => toJson c.2)).all Json.isEmptyObject = true := by
      rw [Json.pruneItems_eq_map, List.map_map, List.all_map, List.all_eq_true]
      -- Each item is replaced by an empty object.
      intro c hc
      show ((toJson c.2).prune.getD (.obj [])).isEmptyObject = true
      rw [hpruned c hc]
      rfl
    rw [hfits.toJson_list ht hnil, Json.prune_arr hobjects, if_pos hall]

end Branch

/-- Nothing is left of the value of a tree in which empty lists alone are found, and none of them as an
item of a list. -/
theorem prune_toJson_eq_none {t : Tree} {named : String → Prop} {place : Place} (ht : t.Proper)
    (hfits : t.Fits named place) (hempty : ∀ path v, find? path t = some v → v = .arr [])
    (hitem : ∀ path v, find? path t = some v → ∀ i, path.getLast? ≠ some (.index i))
    (hroot : place = .object → find? [] t = none) : (toJson t).prune = none := by
  induction ht generalizing place with
  -- The empty list alone is dropped.
  | leaf value =>
    have hvalue : value = .arr [] := hempty [] value rfl
    rw [hvalue]
    rfl
  | @branch children sorted filled proper ih =>
    have hproper : (Tree.branch children).Proper := .branch sorted filled proper
    have hbelow : ∀ c ∈ children, ∀ path v, find? path c.2 = some v →
        find? (c.1 :: path) (Tree.branch children) = some v :=
      fun c hc path v hv => hproper.find?_of_mem_children hc hv
    -- An item of the list is no empty list, as the path to it would end in a position.
    have hobject : place.next = .object → ∀ c ∈ children, find? [] c.2 = none := by
      intro hnext c hc
      cases hfind : find? [] c.2 with
      | none => rfl
      | some v =>
        have hfit := (hfits.of_mem_children hproper hc).1
        cases place with
        | object => cases hnext
        | list =>
          obtain ⟨i, hi⟩ := hfit.exists_index
          have hlast : [c.1].getLast? = some (.index i) := by rw [hi]; rfl
          exact absurd hlast (hitem _ v (hbelow c hc [] v hfind) i)
    have hpruned : ∀ c ∈ children, (toJson c.2).prune = none := by
      intro c hc
      -- Every child has nothing left, as what is found in it is found in the tree.
      refine ih c hc (hfits.of_mem_children hproper hc).2
        (fun path v hv => hempty _ v (hbelow c hc path v hv)) (fun path v hv i hi => ?_)
        fun hnext => hobject hnext c hc
      refine hitem _ v (hbelow c hc path v hv) i ?_
      rw [List.getLast?_cons, hi, Option.getD_some]
    cases place with
    | object => exact prune_toJson_object hproper hfits hpruned
    | list => exact prune_toJson_list hproper hfits (hobject rfl) hpruned

end Tree

/-! ## The tree of the messages -/

namespace Messages

variable {m : Messages} {key : Key} {l : List String}

/-- Every key is an address, and an item of a list is a key of its own only if it has a message. -/
structure Regular (m : Messages) : Prop where
  /-- The keys are addresses. -/
  address : ∀ k ∈ m.keys, k.IsAddress
  /-- A key that ends in a position has a message. -/
  item : ∀ k l, m.get? k = some l → (∃ i, k.last? = some (.index i)) → l ≠ []

/-- Keys that are addresses stay addresses. -/
theorem address_toFlat_unshadow (hm : ∀ k ∈ m.keys, k.IsAddress) :
    ∀ k ∈ m.unshadow.toFlat.keys, k.IsAddress := by
  intro k hk
  obtain ⟨v, hv⟩ := SortedMap.mem_keys_iff.1 hk
  obtain ⟨l, hl, -⟩ := get?_toFlat_unshadow_eq_some_iff.1 hv
  exact hm k (SortedMap.mem_keys_of_get? hl)

section Found

variable (hm : ∀ k ∈ m.keys, k.IsAddress) (hget : m.get? key = some l) (hne : l ≠ [])
  (hlast : ∀ below, m.Flagged below → key.segments <+: below.segments →
    below.segments = key.segments)

include hm hget hne hlast

/-- The messages of a key from which no flagged key goes on are found in the error tree. -/
theorem at?_tree_settled :
    m.tree.at? ⟨Tree.settled key.segments (Tree.ofFlat m.unshadow.toFlat)⟩ =
      some (.ofStrings l) := by
  have hflat : m.unshadow.toFlat.get? key = some (.ofStrings l) :=
    get?_toFlat_unshadow_eq_some_iff.2 ⟨l, hget, .inl hne, rfl⟩
  exact Record.at?_prune hne (FlatValues.at?_nest_settled (address_toFlat_unshadow hm) hflat
    (ends_toFlat_unshadow ⟨l, hget, hne⟩ hlast))

/-- They are found under the key if there is no gap on the way. -/
theorem at?_tree (hfull : m.unshadow.toFlat.Gapless key) :
    m.tree.at? key = some (.ofStrings l) := by
  have hflat : m.unshadow.toFlat.get? key = some (.ofStrings l) :=
    get?_toFlat_unshadow_eq_some_iff.2 ⟨l, hget, .inl hne, rfl⟩
  exact Record.at?_prune hne (FlatValues.at?_nest (address_toFlat_unshadow hm) hflat
    (ends_toFlat_unshadow ⟨l, hget, hne⟩ hlast) hfull)

end Found

/-- If no message is there the error tree is empty, when the keys lead through objects and lists in turn
and none of them ends in a position. -/
theorem tree_eq_empty_of_alternates {named : String → Prop}
    (hkeys : ∀ k ∈ m.keys, Alternates named .object k.segments)
    (hitem : ∀ k ∈ m.keys, ∀ i, k.last? ≠ some (.index i))
    (hempty : ∀ k l, m.get? k = some l → l = []) : m.tree = ∅ := by
  have hget : ∀ {k v}, m.unshadow.toFlat.get? k = some v →
      ∃ l, m.get? k = some l ∧ v = .ofStrings l := by
    intro k v hv
    obtain ⟨l, hl, -, rfl⟩ := get?_toFlat_unshadow_eq_some_iff.1 hv
    exact ⟨l, hl, rfl⟩
  -- The keys alternate, so the tree is one of objects and lists.
  have hfits : (Tree.ofFlat m.unshadow.toFlat).Fits named .object := by
    refine FlatValues.fits_ofFlat_of_alternates fun k hk => ?_
    obtain ⟨v, hv⟩ := SortedMap.mem_keys_iff.1 hk
    obtain ⟨l, hl, -⟩ := hget hv
    exact hkeys k (SortedMap.mem_keys_of_get? hl)
  refine Record.prune_eq_empty ?_
  rw [FlatValues.ofRecord_nest_of_fits hfits]
  refine Tree.prune_toJson_eq_none (Tree.proper_ofFlat _) hfits
    (fun path v hv => ?_) (fun path v hv i hi => ?_) fun _ => Tree.find?_nil_ofFlat _
  · obtain ⟨l, hl, rfl⟩ := hget (Tree.find?_ofFlat_iff.1 hv).2.1
    rw [hempty _ l hl]
    rfl
  · obtain ⟨l, hl, -⟩ := hget (Tree.find?_ofFlat_iff.1 hv).2.1
    exact hitem ⟨path⟩ (SortedMap.mem_keys_of_get? hl) i hi

/-- If no message is there the error tree is empty. -/
theorem Regular.tree_eq_empty (h : m.Regular) (hempty : ∀ k l, m.get? k = some l → l = []) :
    m.tree = ∅ := by
  refine tree_eq_empty_of_alternates (fun k hk => (h.address k hk).2) (fun k hk i hi => ?_) hempty
  obtain ⟨l, hl⟩ := SortedMap.mem_keys_iff.1 hk
  exact h.item k l hl ⟨i, hi⟩ (hempty k l hl)

/-- If a message is there the error tree is not empty. -/
theorem Regular.eq_nil_of_tree_eq_empty (h : m.Regular) (htree : m.tree = ∅)
    (hget : m.get? key = some l) : l = [] := by
  by_cases hl : l = []
  · exact hl
  · -- The messages of the greatest key that has some are found, and in the empty tree nothing is.
    have hflagged : ∀ k w, (m.filter fun _ w => !w.isEmpty).get? k = some w ↔
        m.get? k = some w ∧ w ≠ [] := by
      intro k w
      rw [SortedMap.get?_filter_eq_some_iff, Bool.not_eq_true', List.isEmpty_eq_false_iff]
    obtain ⟨k, w, hk, hgreatest⟩ := SortedMap.exists_greatest ((hflagged key l).2 ⟨hget, hl⟩)
    obtain ⟨hkget, hne⟩ := (hflagged k w).1 hk
    have hlast : ∀ below, m.Flagged below → k.segments <+: below.segments →
        below.segments = k.segments := by
      rintro below ⟨w', hw', hne'⟩ hbegins
      rcases hgreatest below w' ((hflagged below w').2 ⟨hw', hne'⟩) with heq | hlt
      · rw [heq]
      · have hle : below.segments.length ≤ k.segments.length := Key.length_le_of_lt hlt
        exact (hbegins.eq_of_length_le hle).symm
    have hfound := at?_tree_settled h.address hkget hne hlast
    rw [htree] at hfound
    have hnonempty := Json.isEmptyObject_eq_false hfound rfl
    cases hnonempty

end Messages

end FlatRecord
