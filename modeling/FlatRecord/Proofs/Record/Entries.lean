import FlatRecord.Proofs.Record.Objects

/-!
# The entries of a flat record

What `Record.flatten` lists. The entries of a record are the values that are not expanded lists
themselves, each under the path of its object and its name: `Json.Holds` states this without the
flattening, and `mem_fieldEntries_iff` shows that the entries listed are those held.
`get?_flatten_iff` says the same of the look-ups in a flat record, and `exists_eq_field_of_mem_keys`
is what many callers need of it: every key is that of a field of an object in the record.
Flattening succeeds when every item of every expanded list is an object
(`exists_fieldEntries_iff`).
-/

namespace FlatRecord

namespace Json

/-! ## What an object holds -/

/-- The object at the end of a path through expanded lists holds the value under the name, and the
value is no expanded list. -/
def Holds (fields : List (String × Json)) (path : ItemPath) (name : String) (value : Json) : Prop :=
  ∃ inner, Within isExpanded fields path inner ∧ (name, value) ∈ inner ∧ value.expands = false

/-- The record itself holds the fields whose value is not expanded. -/
theorem holds_nil {fields : List (String × Json)} {name : String} {value : Json} :
    Holds fields [] name value ↔ (name, value) ∈ fields ∧ value.expands = false := by
  constructor
  · rintro ⟨inner, ⟨⟩, h⟩
    exact h
  · exact fun h => ⟨fields, .here fields, h⟩

/-- A longer path goes into an object of an expanded list first. -/
theorem holds_cons {fields : List (String × Json)} {list : String} {position : Nat}
    {path : ItemPath} {name : String} {value : Json} :
    Holds fields ((list, position) :: path) name value ↔ ∃ items inner, (list, arr items) ∈ fields ∧
      isExpanded items = true ∧ items[position]? = some (obj inner) ∧
        Holds inner path name value := by
  constructor
  · rintro ⟨last, hw, h⟩
    cases hw with
    | item hlist hinto hitem hrest => exact ⟨_, _, hlist, hinto, hitem, last, hrest, h⟩
  · rintro ⟨items, inner, hlist, hinto, hitem, last, hrest, h⟩
    exact ⟨last, .item hlist hinto hitem hrest, h⟩

/-- An object without fields holds nothing. -/
theorem not_holds_empty {path : ItemPath} {name : String} {value : Json} :
    ¬ Holds [] path name value := by
  rintro ⟨inner, hw, hmem, -⟩
  cases hw with
  | here => cases hmem
  | item hlist => cases hlist

/-- An object whose first field is an expanded list holds what the objects in the list hold. -/
theorem holds_list_cons {list : String} {items : List Json} {rest : List (String × Json)}
    {path : ItemPath} {name : String} {value : Json} (hitems : isExpanded items = true) :
    Holds ((list, arr items) :: rest) path name value ↔
      (∃ position tail inner, path = (list, position) :: tail ∧
        items[position]? = some (obj inner) ∧ Holds inner tail name value) ∨
      Holds rest path name value := by
  cases path with
  | nil =>
    -- At the empty path the list is no value that the object holds.
    simp only [holds_nil, List.mem_cons, Prod.mk.injEq, reduceCtorEq, false_and, exists_false,
      false_or, or_and_right, or_iff_right_iff_imp]
    rintro ⟨⟨-, rfl⟩, hvalue⟩
    cases hitems.symm.trans hvalue
  | cons step tail =>
    obtain ⟨list', position⟩ := step
    simp only [holds_cons, List.mem_cons, Prod.mk.injEq, arr.injEq, List.cons.injEq]
    constructor
    · rintro ⟨items', inner, ⟨rfl, rfl⟩ | hlist, hinto, hitem, h⟩
      · -- The list gone into is the one of the first field, or one further on.
        exact .inl ⟨position, tail, inner, ⟨⟨rfl, rfl⟩, rfl⟩, hitem, h⟩
      · exact .inr ⟨items', inner, hlist, hinto, hitem, h⟩
    · rintro (⟨_, _, inner, ⟨⟨rfl, rfl⟩, rfl⟩, hitem, h⟩ | ⟨items', inner, hlist, hinto, hitem, h⟩)
      · exact ⟨items, inner, .inl ⟨rfl, rfl⟩, hitems, hitem, h⟩
      · exact ⟨items', inner, .inr hlist, hinto, hitem, h⟩

/-- An object whose first field is no expanded list holds its value. -/
theorem holds_value_cons {first : String} {v : Json} {rest : List (String × Json)}
    {path : ItemPath} {name : String} {value : Json} (hv : v.expands = false) :
    Holds ((first, v) :: rest) path name value ↔
      (path = [] ∧ name = first ∧ value = v) ∨ Holds rest path name value := by
  cases path with
  | nil =>
    -- The value is held by the object itself, under the first name or another one.
    simp only [holds_nil, List.mem_cons, Prod.mk.injEq, true_and, or_and_right]
    constructor
    · rintro (⟨⟨hname, hvalue⟩, -⟩ | h)
      · exact .inl ⟨hname, hvalue⟩
      · exact .inr h
    · rintro (⟨rfl, rfl⟩ | h)
      · exact .inl ⟨⟨rfl, rfl⟩, hv⟩
      · exact .inr h
  | cons step tail =>
    obtain ⟨list, position⟩ := step
    simp only [holds_cons, List.mem_cons, Prod.mk.injEq, reduceCtorEq, false_and, false_or]
    constructor
    · -- The first field has no list to go into.
      rintro ⟨items, inner, ⟨rfl, rfl⟩ | hlist, hinto, hitem, h⟩
      · cases hinto.symm.trans hv
      · exact ⟨items, inner, hlist, hinto, hitem, h⟩
    · rintro ⟨items, inner, hlist, hinto, hitem, h⟩
      exact ⟨items, inner, .inr hlist, hinto, hitem, h⟩

/-- An ordered object holds one value at the end of a path. -/
theorem eq_of_holds {fields : List (String × Json)} {path : ItemPath} {name : String} {v w : Json}
    (h : (obj fields).Ordered) (hv : Holds fields path name v) (hw : Holds fields path name w) :
    v = w := by
  obtain ⟨inner, hin, hmem, -⟩ := hv
  obtain ⟨inner', hin', hmem', -⟩ := hw
  cases hin.eq_of_ordered h hin'
  exact Ascending.eq_of_mem_of_mem (hin.ordered h).1 hmem hmem'

/-! ## The entries listed -/

/-- Two lists read one after the other are both read. -/
theorem append_eq_ok {α ε : Type} {x y : Except ε (List α)} {l : List α} :
    (do let a ← x; let b ← y; return a ++ b) = .ok l ↔
      ∃ a b, x = .ok a ∧ y = .ok b ∧ l = a ++ b := by
  cases x with
  | error e => simp [bind, Except.bind]
  | ok a =>
    cases y with
    | error e => simp [bind, Except.bind]
    | ok b => simp [bind, Except.bind, pure, Except.pure, eq_comm]

/-- A value that is no expanded list is one entry. -/
theorem entriesAt_of_expands_eq_false {v : Json} (h : v.expands = false) (key : Key) :
    entriesAt key v = .ok [(key, v)] := by
  cases v with
  | arr items =>
    rw [entriesAt, if_neg]
    exact Bool.eq_false_iff.1 h
  | _ => rfl

/-- The entries of an expanded list are those of its items. -/
theorem entriesAt_arr {items : List Json} (h : isExpanded items = true) (key : Key) :
    entriesAt key (arr items) = itemEntries key 0 items := by
  rw [entriesAt, if_pos h]

/-- A value in a list that is no object has no entries. -/
theorem itemEntries_of_isObject_eq_false {v : Json} (h : v.isObject = false) (key : Key)
    (position : Nat) (rest : List Json) :
    itemEntries key position (v :: rest) = .error (.mixedList (key.index position)) := by
  cases v with
  | obj fields => cases h
  | _ => rfl

/-- The path to the record itself adds nothing to a key. -/
theorem append_key_nil (key : Key) : key ++ ItemPath.key [] = key := by
  change (⟨_⟩ : Key) = key
  simp [ItemPath.key]

/-- The key of an object in an item of a list is that of its path from outside the list. -/
theorem index_append_key (key : Key) (list : String) (position : Nat) (path : ItemPath) :
    (key.field list).index position ++ path.key = key ++ ItemPath.key ((list, position) :: path) := by
  change (⟨_⟩ : Key) = ⟨_⟩
  simp [Key.field, Key.index, Key.push, ItemPath.key]

/-- The entries listed for the fields of an object are what the object holds, each under the path
of the object it is in and its name. -/
theorem mem_fieldEntries_iff {key : Key} {fields : List (String × Json)} {l : List (Key × Json)}
    (h : fieldEntries key fields = .ok l) {k : Key} {v : Json} :
    (k, v) ∈ l ↔ ∃ path name, Holds fields path name v ∧ k = (key ++ path.key).field name := by
  -- The entries of items are those of the objects among them; `i` counts from the first item, whose
  -- position is given.
  have cases : ExpandedCases
      (fun fields => ∀ key l, fieldEntries key fields = .ok l → ∀ k v, (k, v) ∈ l ↔
        ∃ path name, Holds fields path name v ∧ k = (key ++ ItemPath.key path).field name)
      (fun items => ∀ key position l, itemEntries key position items = .ok l → ∀ k v, (k, v) ∈ l ↔
        ∃ i fields, items[i]? = some (obj fields) ∧ ∃ path name, Holds fields path name v ∧
          k = (key.index (position + i) ++ ItemPath.key path).field name) := by
    refine ⟨?nil, ?list, ?value, ?empty, ?item, ?other⟩
    case nil =>
      intro key l h k v
      cases h
      simp only [List.not_mem_nil, false_iff]
      rintro ⟨path, name, h, -⟩
      exact not_holds_empty h
    case list =>
      intro list items rest hitems ihItems ihRest key l h k v
      obtain ⟨here, others, hhere, hothers, rfl⟩ := append_eq_ok.1 h
      rw [entriesAt_arr hitems] at hhere
      rw [List.mem_append, ihItems _ _ _ hhere, ihRest _ _ hothers]
      simp only [holds_list_cons hitems, or_and_right, exists_or]
      -- The fields further on have the same entries on both sides. An object in the list is one step
      -- away, and its position is counted from zero.
      refine or_congr_left ?_
      simp only [Nat.zero_add, index_append_key]
      constructor
      · rintro ⟨i, fields, hitem, path, name, hholds, rfl⟩
        exact ⟨(list, i) :: path, name, ⟨i, path, fields, rfl, hitem, hholds⟩, rfl⟩
      · rintro ⟨_, name, ⟨i, path, fields, rfl, hitem, hholds⟩, rfl⟩
        exact ⟨i, fields, hitem, path, name, hholds, rfl⟩
    case value =>
      intro first v' rest hv' ihRest key l h k v
      obtain ⟨here, others, hhere, hothers, rfl⟩ := append_eq_ok.1 h
      rw [entriesAt_of_expands_eq_false hv'] at hhere
      cases hhere
      rw [List.mem_append, List.mem_singleton, ihRest _ _ hothers]
      simp only [holds_value_cons hv', or_and_right, exists_or]
      -- The first entry is that of the value, under its name.
      refine or_congr_left ?_
      constructor
      · rintro ⟨⟩
        exact ⟨[], first, ⟨rfl, rfl, rfl⟩, by rw [append_key_nil]⟩
      · rintro ⟨_, _, ⟨rfl, rfl, rfl⟩, rfl⟩
        rw [append_key_nil]
    case empty =>
      intro key position l h k v
      cases h
      simp
    case item =>
      intro fields rest ihFields ihRest key position l h k v
      obtain ⟨here, others, hhere, hothers, rfl⟩ := append_eq_ok.1 h
      have hnext : ∀ i, position + 1 + i = position + (i + 1) := by omega
      -- The first object has position 0 among the items, and those of the rest are moved by one.
      rw [List.mem_append, ihFields _ _ hhere, ihRest _ _ _ hothers, exists_item_obj_cons]
      simp only [hnext, Nat.add_zero]
    case other =>
      intro v' rest hv' ihRest key position l h
      -- The list cannot be read, so there are no entries.
      rw [itemEntries_of_isObject_eq_false hv'] at h
      cases h
  exact cases.fields fields key l h k v

/-- Two lists can be read one after the other if each can be read. -/
theorem exists_append_eq_ok {α ε : Type} {x y : Except ε (List α)} :
    (∃ l, (do let a ← x; let b ← y; return a ++ b) = .ok l) ↔
      (∃ a, x = .ok a) ∧ ∃ b, y = .ok b := by
  simp only [append_eq_ok]
  constructor
  · rintro ⟨l, a, b, ha, hb, -⟩
    exact ⟨⟨a, ha⟩, b, hb⟩
  · rintro ⟨⟨a, ha⟩, b, hb⟩
    exact ⟨a ++ b, a, b, ha, hb, rfl⟩

/-- The entries of an object can be listed when every item of every expanded list is an object. -/
theorem exists_fieldEntries_iff {key : Key} {fields : List (String × Json)} :
    (∃ l, fieldEntries key fields = .ok l) ↔ EveryItem (·.isObject = true) fields := by
  have cases : ExpandedCases
      (fun fields => ∀ key, (∃ l, fieldEntries key fields = .ok l) ↔
        EveryItem (·.isObject = true) fields)
      (fun items => ∀ key position, (∃ l, itemEntries key position items = .ok l) ↔
        (∀ v ∈ items, v.isObject = true) ∧
          ∀ fields, obj fields ∈ items → EveryItem (·.isObject = true) fields) := by
    refine ⟨?nil, ?list, ?value, ?empty, ?item, ?other⟩
    case nil => exact fun key => ⟨fun _ => everyItem_nil _, fun _ => ⟨[], rfl⟩⟩
    case list =>
      intro list items rest hitems ihItems ihRest key
      rw [fieldEntries, exists_append_eq_ok, entriesAt_arr hitems, ihItems, ihRest,
        everyItem_list_cons hitems, and_assoc]
    case value =>
      intro name v rest hv ihRest key
      rw [fieldEntries, exists_append_eq_ok, entriesAt_of_expands_eq_false hv, ihRest,
        everyItem_value_cons hv]
      exact ⟨fun h => h.2, fun h => ⟨⟨_, rfl⟩, h⟩⟩
    case empty => exact fun key position => ⟨fun _ => ⟨nofun, nofun⟩, fun _ => ⟨[], rfl⟩⟩
    case item =>
      intro fields rest ihFields ihRest key position
      rw [itemEntries, exists_append_eq_ok, ihFields, ihRest, forall_obj_mem_cons,
        List.forall_mem_cons]
      -- The first item is an object as it stands.
      exact ⟨fun ⟨hfields, hobjects, hinside⟩ => ⟨⟨rfl, hobjects⟩, hfields, hinside⟩,
        fun ⟨⟨_, hobjects⟩, hfields, hinside⟩ => ⟨hfields, hobjects, hinside⟩⟩
    case other =>
      intro v rest hv ihRest key position
      rw [itemEntries_of_isObject_eq_false hv]
      -- An item that is no object makes both sides false.
      refine ⟨nofun, fun ⟨hobjects, _⟩ => ?_⟩
      cases hv.symm.trans (hobjects v List.mem_cons_self)
  exact cases.fields fields key

end Json

/-! ## The keys of a flat record -/

namespace Record

variable {r : Record} {f : FlatValues}

/-- The flat form of a record is made of the entries listed for its fields, if they can be listed. -/
theorem flatten_eq_ok_iff : r.flatten = .ok f ↔
    ∃ l, Json.fieldEntries .root r.entries = .ok l ∧ f = .ofList l := by
  unfold flatten
  cases Json.fieldEntries .root r.entries with
  | error e => exact ⟨nofun, fun ⟨_, h, _⟩ => nomatch h⟩
  | ok l =>
    constructor
    · intro h
      exact ⟨l, rfl, (Except.ok.inj h).symm⟩
    · rintro ⟨_, ⟨⟩, rfl⟩
      rfl

/-- A record can be flattened when every item of every expanded list in it is an object. -/
theorem exists_flatten_iff : (∃ f, r.flatten = .ok f) ↔
    Json.EveryItem (·.isObject = true) r.entries := by
  rw [← @Json.exists_fieldEntries_iff .root]
  simp only [flatten_eq_ok_iff]
  constructor
  · rintro ⟨_, l, hl, -⟩
    exact ⟨l, hl⟩
  · rintro ⟨l, hl⟩
    exact ⟨.ofList l, l, hl, rfl⟩

/-- The entries of the flat form of a record are what the record holds. -/
theorem holds_of_get?_flatten (h : r.flatten = .ok f) {k : Key} {v : Json}
    (hk : f.get? k = some v) :
    ∃ path name, Json.Holds r.entries path name v ∧ k = (ItemPath.key path).field name := by
  obtain ⟨l, hl, rfl⟩ := flatten_eq_ok_iff.1 h
  have hmem : (k, v) ∈ l := SortedMap.mem_of_get?_ofList hk
  obtain ⟨path, name, hholds, rfl⟩ := (Json.mem_fieldEntries_iff hl).1 hmem
  exact ⟨path, name, hholds, rfl⟩

/-- Every key of a flat record is that of a field of an object in the record. -/
theorem exists_eq_field_of_mem_keys (h : r.flatten = .ok f) {k : Key} (hk : k ∈ f.keys) :
    ∃ (path : ItemPath) (name : String), k = path.key.field name := by
  obtain ⟨v, hv⟩ := SortedMap.mem_keys_iff.1 hk
  obtain ⟨path, name, -, hkey⟩ := holds_of_get?_flatten h hv
  exact ⟨path, name, hkey⟩

/-- The flat form of a record has a value under the key of everything that the record holds. -/
theorem exists_get?_flatten (h : r.flatten = .ok f) {path : ItemPath} {name : String} {v : Json}
    (hholds : Json.Holds r.entries path name v) : ∃ w, f.get? (path.key.field name) = some w := by
  obtain ⟨l, hl, rfl⟩ := flatten_eq_ok_iff.1 h
  have hmem : (path.key.field name, v) ∈ l :=
    (Json.mem_fieldEntries_iff hl).2 ⟨path, name, hholds, rfl⟩
  exact SortedMap.exists_get?_insertMany ∅ (.inl (List.mem_map.2 ⟨_, hmem, rfl⟩))

/-- In a record whose objects list their names in order, a key of the flat form has the value that
the record holds there. -/
theorem get?_flatten_iff (hr : (Json.ofRecord r).Ordered) (h : r.flatten = .ok f)
    {path : ItemPath} {name : String} {v : Json} :
    f.get? (path.key.field name) = some v ↔ Json.Holds r.entries path name v := by
  constructor
  · intro hv
    -- The entry is that of a value which the record holds, and its key tells where.
    obtain ⟨path', name', hholds, hkey⟩ := holds_of_get?_flatten h hv
    obtain ⟨rfl, rfl⟩ := ItemPath.key_field_inj.1 hkey
    exact hholds
  · intro hholds
    obtain ⟨l, hl, rfl⟩ := flatten_eq_ok_iff.1 h
    have hmem : (path.key.field name, v) ∈ l :=
      (Json.mem_fieldEntries_iff hl).2 ⟨path, name, hholds, rfl⟩
    -- All entries under the key have the value that the record holds there, so this is what the last of
    -- them leaves.
    refine SortedMap.get?_ofList_of_forall_eq hmem fun w hw => ?_
    obtain ⟨path', name', hholds', hkey⟩ := (Json.mem_fieldEntries_iff hl).1 hw
    obtain ⟨rfl, rfl⟩ := ItemPath.key_field_inj.1 hkey
    exact Json.eq_of_holds hr hholds' hholds

end Record

end FlatRecord
