import FlatRecord.Proofs.Record.Entries
import Mathlib.Logic.ExistsUnique

/-!
# Mixed lists

A list that is expanded and has an item that is no object cannot be flattened. `Json.Offends` says where
such items are: each has a path, through expanded lists, that ends in its own list and position. Flattening
fails just when there is one, and it reports the one whose path comes first in the lexicographic order of
paths, names by their order and then positions (`Record.flatten_reports_first`). This is the order in which
a reader meets the items who goes through the fields by name, through the items by position, and through
all that is inside an item before the next one.

The walk through fields and items is a chain of readings one after the other. `ReportsFirst` is what every
reading does, and it is carried along two steps: a reading in front of another one whose offenders all come
later (`ReportsFirst.append`), and a longer way to the same offenders (`ReportsFirst.map`).
-/

namespace FlatRecord

/-! ## Readings that report the first offender -/

section Readings

variable {α β : Type} {before : α → α → Prop} {before' : β → β → Prop} {offends offends' : α → Prop}
  {address : α → Key} {address' : β → Key} {x y : Except StructureError (List (Key × Json))}

/-- One of those that offend comes before all others. -/
def IsFirst (before : α → α → Prop) (offends : α → Prop) (a : α) : Prop :=
  offends a ∧ ∀ b, offends b → b = a ∨ before a b

/-- A reading succeeds if nothing offends, and else it fails with the address of the first offender. -/
def ReportsFirst (before : α → α → Prop) (offends : α → Prop) (address : α → Key)
    (x : Except StructureError (List (Key × Json))) : Prop :=
  (∃ l, x = .ok l) ∧ (∀ a, ¬ offends a) ∨
    ∃ a, IsFirst before offends a ∧ x = .error (.mixedList (address a))

/-- Where nothing offends, a success is the right answer. -/
theorem reportsFirst_ok (l : List (Key × Json)) : ReportsFirst before (fun _ => False) address (.ok l) :=
  .inl ⟨⟨l, rfl⟩, fun _ => id⟩

/-- What is reported first depends on what offends only. -/
theorem ReportsFirst.congr (h : ReportsFirst before offends address x)
    (hoffends : ∀ a, offends' a ↔ offends a) : ReportsFirst before offends' address x := by
  have heq : offends' = offends := funext fun a => propext (hoffends a)
  rw [heq]
  exact h

/-- The first offender is in the reading in front if there is one, and else in the one behind it. -/
theorem ReportsFirst.append (h : ReportsFirst before offends address x)
    (h' : ReportsFirst before offends' address y)
    (hbefore : ∀ a b, offends a → offends' b → before a b) :
    ReportsFirst before (fun a => offends a ∨ offends' a) address
      (do let l ← x; let l' ← y; return l ++ l') := by
  rcases h with ⟨⟨l, rfl⟩, hnone⟩ | ⟨a, ⟨ha, hfirst⟩, rfl⟩
  · rcases h' with ⟨⟨l', rfl⟩, hnone'⟩ | ⟨b, ⟨hb, hfirst'⟩, rfl⟩
    · exact .inl ⟨⟨l ++ l', rfl⟩, fun a ha => ha.elim (hnone a) (hnone' a)⟩
    · exact .inr ⟨b, ⟨.inr hb, fun c hc => hfirst' c (hc.resolve_left (hnone c))⟩, rfl⟩
  · refine .inr ⟨a, ⟨.inl ha, fun c hc => ?_⟩, rfl⟩
    rcases hc with hc | hc
    · exact hfirst c hc
    · exact .inr (hbefore a c ha hc)

/-- A reading reports the same offender when the way to all of them starts further out. -/
theorem ReportsFirst.map {f : α → β} (h : ReportsFirst before offends address x)
    (hbefore : ∀ a b, before a b → before' (f a) (f b)) (haddress : ∀ a, address' (f a) = address a) :
    ReportsFirst before' (fun b => ∃ a, b = f a ∧ offends a) address' x := by
  rcases h with ⟨hok, hnone⟩ | ⟨a, ⟨ha, hfirst⟩, rfl⟩
  · exact .inl ⟨hok, fun _ ⟨a, _, ha⟩ => hnone a ha⟩
  · refine .inr ⟨f a, ⟨⟨a, rfl, ha⟩, ?_⟩, by rw [haddress]⟩
    rintro _ ⟨b, rfl, hb⟩
    rcases hfirst b hb with rfl | hlater
    · exact .inl rfl
    · exact .inr (hbefore a b hlater)

end Readings

/-- The order of paths: the first step in which two paths differ decides, by the name of the list and then
by the position in it. -/
def ItemPath.Before : ItemPath → ItemPath → Prop := List.Lex (Prod.Lex (· < ·) (· < ·))

namespace Json

/-! ## Items that are no objects -/

/-- The item at the end of the path is no object, though its list is expanded, as are all lists on the
way. -/
inductive Offends : List (String × Json) → ItemPath → Prop where
  /-- An item of an expanded list in a field. -/
  | here {fields list items i v} (hlist : (list, arr items) ∈ fields) (hitems : isExpanded items = true)
    (hitem : items[i]? = some v) (hv : v.isObject = false) : Offends fields [(list, i)]
  /-- An item inside an object in an expanded list in a field. -/
  | inside {fields list items i inner p} (hlist : (list, arr items) ∈ fields)
    (hitems : isExpanded items = true) (hitem : items[i]? = some (obj inner)) (h : Offends inner p) :
    Offends fields ((list, i) :: p)

/-- The item of a list at a position is no object, with an empty path, or an item inside it is none. -/
def OffendsIn (items : List Json) (place : Nat × ItemPath) : Prop :=
  ∃ v, items[place.1]? = some v ∧
    (place.2 = [] ∧ v.isObject = false ∨ ∃ inner, v = obj inner ∧ Offends inner place.2)

variable {fields rest : List (String × Json)} {items : List Json} {list : String} {i : Nat}
  {p : ItemPath} {v : Json} {place : Nat × ItemPath}

/-- A place in an item of an expanded list offends if it does in that list. -/
theorem offends_cons_iff : Offends fields ((list, i) :: p) ↔
    ∃ items, (list, arr items) ∈ fields ∧ isExpanded items = true ∧ OffendsIn items (i, p) := by
  constructor
  · intro h
    cases h with
    | here hlist hitems hitem hv => exact ⟨_, hlist, hitems, _, hitem, .inl ⟨rfl, hv⟩⟩
    | inside hlist hitems hitem h => exact ⟨_, hlist, hitems, _, hitem, .inr ⟨_, rfl, h⟩⟩
  · rintro ⟨items, hlist, hitems, v, hitem, ⟨hpath, hv⟩ | ⟨inner, rfl, h⟩⟩
    · obtain rfl : p = [] := hpath
      exact .here hlist hitems hitem hv
    · exact .inside hlist hitems hitem h

/-- The path of an offender starts with a list that is a field. -/
theorem Offends.exists_cons (h : Offends fields p) : ∃ list i tail items, p = (list, i) :: tail ∧
    (list, arr items) ∈ fields ∧ isExpanded items = true ∧ OffendsIn items (i, tail) := by
  cases p with
  | nil => cases h
  | cons step tail =>
    obtain ⟨items, hitems⟩ := offends_cons_iff.1 h
    exact ⟨step.1, step.2, tail, items, rfl, hitems⟩

/-- An object without fields has nothing that offends. -/
theorem not_offends_nil : ¬ Offends [] p := by
  intro h
  obtain ⟨_, _, _, _, -, hlist, -⟩ := h.exists_cons
  cases hlist

/-- What offends is in the expanded list of the first field, if it has one, or under the other fields. -/
theorem offends_field_cons_iff {name : String} : Offends ((name, v) :: rest) p ↔
    (∃ i tail items, p = (name, i) :: tail ∧ v = arr items ∧ isExpanded items = true ∧
      OffendsIn items (i, tail)) ∨ Offends rest p := by
  constructor
  · intro h
    obtain ⟨list, i, tail, items, rfl, hlist, hitems, hoffends⟩ := h.exists_cons
    -- The list is that of the first field or of another one.
    rcases List.mem_cons.1 hlist with he | hlist
    · cases he
      exact .inl ⟨i, tail, items, rfl, rfl, hitems, hoffends⟩
    · exact .inr (offends_cons_iff.2 ⟨items, hlist, hitems, hoffends⟩)
  · rintro (⟨i, tail, items, rfl, rfl, hitems, hoffends⟩ | h)
    · exact offends_cons_iff.2 ⟨items, List.mem_cons_self, hitems, hoffends⟩
    · obtain ⟨list, i, tail, items, rfl, hlist, hitems, hoffends⟩ := h.exists_cons
      exact offends_cons_iff.2 ⟨items, List.mem_cons_of_mem _ hlist, hitems, hoffends⟩

/-- Under a first field with an expanded list offend those in the list and those under the others. -/
theorem offends_list_cons_iff (hitems : isExpanded items = true) :
    Offends ((list, arr items) :: rest) p ↔
      (∃ place : Nat × ItemPath, p = (list, place.1) :: place.2 ∧ OffendsIn items place) ∨
        Offends rest p := by
  rw [offends_field_cons_iff]
  refine or_congr_left ⟨?_, ?_⟩
  · rintro ⟨i, tail, _, rfl, ⟨⟩, -, hoffends⟩
    exact ⟨(i, tail), rfl, hoffends⟩
  · rintro ⟨⟨i, tail⟩, rfl, hoffends⟩
    exact ⟨i, tail, items, rfl, rfl, hitems, hoffends⟩

/-- Under a first field with any other value offend those under the others. -/
theorem offends_value_cons_iff {name : String} (hv : v.expands = false) :
    Offends ((name, v) :: rest) p ↔ Offends rest p := by
  rw [offends_field_cons_iff]
  refine or_iff_right ?_
  rintro ⟨i, tail, items, -, rfl, hitems, -⟩
  cases hitems.symm.trans hv

/-- In a list offend the first item or those inside it, and those of the rest, each one position
further on. -/
theorem offendsIn_cons_iff : OffendsIn (v :: items) place ↔
    (∃ p, place = (0, p) ∧ (p = [] ∧ v.isObject = false ∨ ∃ inner, v = obj inner ∧ Offends inner p)) ∨
      ∃ place' : Nat × ItemPath, place = (place'.1 + 1, place'.2) ∧ OffendsIn items place' := by
  obtain ⟨i, p⟩ := place
  constructor
  · rintro ⟨w, hw, h⟩
    cases i with
    | zero =>
      cases hw
      exact .inl ⟨p, rfl, h⟩
    | succ i => exact .inr ⟨(i, p), rfl, w, hw, h⟩
  · rintro (⟨p, ⟨⟩, h⟩ | ⟨⟨i, p⟩, ⟨⟩, w, hw, h⟩)
    · exact ⟨v, rfl, h⟩
    · exact ⟨w, hw, h⟩

/-! ## The walk through fields and items -/

/-- In an ordered object what offends in the first field comes before what offends in the others. -/
theorem Ordered.before_of_offends {name : String} (h : (obj ((name, v) :: rest)).Ordered) {tail q : ItemPath}
    (hq : Offends rest q) : ItemPath.Before ((name, i) :: tail) q := by
  obtain ⟨list', j, tail', items', rfl, hlist, -⟩ := hq.exists_cons
  have hlt : compare name list' = .lt := (List.pairwise_cons.1 h.1).1 _ hlist
  exact .rel (.left _ _ (compareOfLessAndEq_eq_lt.1 hlt))

/-- What is reported first in a list is reported first on the paths that go into the list. -/
theorem reportsFirst_inList {key : Key}
    (h : ReportsFirst (Prod.Lex (· < ·) ItemPath.Before) (OffendsIn items)
      (fun place => (key.field list).index (0 + place.1) ++ place.2.key) x) :
    ReportsFirst ItemPath.Before
      (fun p => ∃ place : Nat × ItemPath, p = (list, place.1) :: place.2 ∧ OffendsIn items place)
      (fun p => key ++ p.key) x := by
  refine h.map ?_ fun place => ?_
  · -- An earlier item comes before, and in one item what comes before inside it.
    rintro ⟨i, p⟩ ⟨j, q⟩ (⟨_, _, hij⟩ | ⟨_, hpq⟩)
    · exact .rel (.right _ hij)
    · exact .cons hpq
  · rw [Nat.zero_add, index_append_key]

/-- What is reported first behind an item is reported first one position further on. -/
theorem reportsFirst_behindItem {key : Key} {position : Nat}
    (h : ReportsFirst (Prod.Lex (· < ·) ItemPath.Before) (OffendsIn items)
      (fun place => key.index (position + 1 + place.1) ++ place.2.key) x) :
    ReportsFirst (Prod.Lex (· < ·) ItemPath.Before)
      (fun place => ∃ place' : Nat × ItemPath, place = (place'.1 + 1, place'.2) ∧ OffendsIn items place')
      (fun place => key.index (position + place.1) ++ place.2.key) x := by
  refine h.map ?_ fun place => ?_
  · -- The order of two positions stays when both are raised.
    rintro ⟨i, p⟩ ⟨j, q⟩ (⟨_, _, hij⟩ | ⟨_, hpq⟩)
    · exact .left _ _ (Nat.succ_lt_succ hij)
    · exact .right _ hpq
  · have hnext : position + (place.1 + 1) = position + 1 + place.1 := by omega
    dsimp only
    rw [hnext]

/-- Reading the fields of an ordered object reports the first offender. -/
theorem reportsFirst_fieldEntries (h : (obj fields).Ordered) (key : Key) :
    ReportsFirst ItemPath.Before (Offends fields) (fun p => key ++ p.key) (fieldEntries key fields) := by
  -- Among the items of a list the position decides, and then the path inside the item.
  have cases : ExpandedCases
      (fun fields => (obj fields).Ordered → ∀ key, ReportsFirst ItemPath.Before (Offends fields)
        (fun p => key ++ p.key) (fieldEntries key fields))
      (fun items => (∀ v ∈ items, v.Ordered) → ∀ key position,
        ReportsFirst (Prod.Lex (· < ·) ItemPath.Before) (OffendsIn items)
          (fun place => key.index (position + place.1) ++ place.2.key)
          (itemEntries key position items)) := by
    refine ⟨?nil, ?list, ?value, ?empty, ?item, ?other⟩
    case nil =>
      intro _ key
      exact (reportsFirst_ok []).congr fun p => iff_false_intro not_offends_nil
    case list =>
      intro list items rest hitems ihItems ihRest h key
      have hlist := reportsFirst_inList (ihItems h.items_of_cons (key.field list) 0)
      rw [fieldEntries, entriesAt_arr hitems]
      -- The first list is read before the fields behind it, whose names come later.
      refine (hlist.append (ihRest h.of_cons key) ?_).congr fun p => offends_list_cons_iff hitems
      rintro _ q ⟨place, rfl, -⟩ hq
      exact h.before_of_offends hq
    case value =>
      intro name v rest hv ihRest h key
      rw [fieldEntries, entriesAt_of_expands_eq_false hv]
      -- A value adds an entry and no offender.
      refine ((reportsFirst_ok _).append (ihRest h.of_cons key) fun _ _ => False.elim).congr fun p => ?_
      rw [offends_value_cons_iff hv, false_or]
    case empty =>
      intro _ key position
      refine (reportsFirst_ok []).congr fun place => iff_false_intro ?_
      rintro ⟨v, hv, -⟩
      cases hv
    case item =>
      intro fields rest ihFields ihRest h key position
      have hfields : ReportsFirst (Prod.Lex (· < ·) ItemPath.Before)
          (fun place => ∃ p, place = (0, p) ∧ Offends fields p)
          (fun place => key.index (position + place.1) ++ place.2.key)
          (fieldEntries (key.index position) fields) :=
        (ihFields (h _ List.mem_cons_self) (key.index position)).map
          (fun _ _ hpq => .right _ hpq) fun _ => rfl
      have hrest := reportsFirst_behindItem
        (ihRest (fun v hv => h v (List.mem_cons_of_mem _ hv)) key (position + 1))
      rw [itemEntries]
      -- The first item is read before those behind it, whose positions are greater.
      refine (hfields.append hrest ?_).congr fun place => ?_
      · rintro _ _ ⟨p, rfl, -⟩ ⟨place, rfl, -⟩
        exact .left _ _ (Nat.succ_pos _)
      · simp [offendsIn_cons_iff, isObject]
    case other =>
      intro v rest hv _ _ key position
      rw [itemEntries_of_isObject_eq_false hv]
      -- The first item is no object: it is reported, and every other offender comes later.
      refine .inr ⟨(0, []), ⟨offendsIn_cons_iff.2 (.inl ⟨[], rfl, .inl ⟨rfl, hv⟩⟩), ?_⟩, ?_⟩
      · intro place hplace
        rcases offendsIn_cons_iff.1 hplace with ⟨p, rfl, ⟨rfl, -⟩ | ⟨inner, rfl, -⟩⟩ | ⟨place', rfl, -⟩
        · exact .inl rfl
        · cases hv
        · exact .inr (.left _ _ (Nat.succ_pos _))
      · change _ = Except.error (StructureError.mixedList (key.index position ++ ItemPath.key []))
        rw [append_key_nil]
  exact cases.fields fields h key

end Json

namespace Record

open Json (Offends Holds)

variable {r : Record}

/-- Flattening reports the first offender. -/
theorem reportsFirst_flatten (hr : (Json.ofRecord r).Ordered) :
    (∃ f, r.flatten = .ok f) ∧ (∀ p, ¬ Offends r.entries p) ∨
      ∃ p, IsFirst ItemPath.Before (Offends r.entries) p ∧ r.flatten = .error (.mixedList p.key) := by
  unfold flatten
  rcases Json.reportsFirst_fieldEntries hr .root with ⟨⟨l, hl⟩, hnone⟩ | ⟨p, hfirst, hp⟩
  · exact .inl ⟨⟨_, by rw [hl]; rfl⟩, hnone⟩
  · exact .inr ⟨p, hfirst, by rw [hp]; rfl⟩

/-- A record cannot be flattened just when an item of an expanded list is no object; the error then has the
address of the first such item. The flat form of any other record has one entry for each value that is no
expanded list itself of the objects in the record, under its address. -/
theorem flatten_reports_first (hr : (Json.ofRecord r).Ordered) :
    ((∃ e, r.flatten = .error e) ↔ ∃ p, Offends r.entries p) ∧
    (∀ e, r.flatten = .error e →
      ∃ p, IsFirst ItemPath.Before (Offends r.entries) p ∧ e = .mixedList p.key) ∧
    ∀ f, r.flatten = .ok f →
      (∀ path name v, Holds r.entries path name v → f.get? (path.key.field name) = some v) ∧
      ∀ k v, f.get? k = some v → ∃! place : ItemPath × String,
        Holds r.entries place.1 place.2 v ∧ k = place.1.key.field place.2 := by
  refine ⟨?_, fun e he => ?_, fun f hf => ⟨fun path name v => (get?_flatten_iff hr hf).2, ?_⟩⟩
  · -- Both halves about errors follow from the one about the first offender.
    rcases reportsFirst_flatten hr with ⟨⟨f, hf⟩, hnone⟩ | ⟨p, hfirst, hp⟩
    · rw [hf]
      exact ⟨nofun, fun ⟨p, hp⟩ => absurd hp (hnone p)⟩
    · exact ⟨fun _ => ⟨p, hfirst.1⟩, fun _ => ⟨_, hp⟩⟩
  · rcases reportsFirst_flatten hr with ⟨⟨f, hf⟩, -⟩ | ⟨p, hfirst, hp⟩
    · cases he.symm.trans hf
    · exact ⟨p, hfirst, Except.error.inj (he.symm.trans hp)⟩
  · intro k v hk
    obtain ⟨path, name, hholds, rfl⟩ := holds_of_get?_flatten hf hk
    -- The key determines the path and the name.
    refine ⟨(path, name), ⟨hholds, rfl⟩, ?_⟩
    rintro ⟨path', name'⟩ ⟨-, hkey⟩
    obtain ⟨rfl, rfl⟩ := ItemPath.key_field_inj.1 hkey
    rfl

/-- A record with four items that are no objects: in `b` one in an inner list of the second object of an inner
list, one behind this object, and one behind the first object; and one in `c`. The list `a` starts with a
text and is not expanded. -/
def mixed : Record := .ofList [
  ("a", .arr [.str "x", .obj []]),
  ("b", .arr [.obj [("m", .arr [.obj [], .obj [("z", .arr [.obj [], .null])], .int 3])], .int 4]),
  ("c", .arr [.obj [], .int 5])]

/-- Of the values of `mixed` that stand among objects in lists, the one that is met first on a walk through
the record is reported. -/
theorem flatten_reports_first_mixed : (Json.ofRecord mixed).Ordered ∧
    mixed.flatten = .error (.mixedList
      ⟨[.field "b", .index 0, .field "m", .index 1, .field "z", .index 1]⟩) ∧
    (∃ p, Offends mixed.entries p) ∧
    ∀ e, mixed.flatten = .error e →
      ∃ p, IsFirst ItemPath.Before (Offends mixed.entries) p ∧ e = .mixedList p.key := by
  have hr : (Json.ofRecord mixed).Ordered := by decide
  have hfails : mixed.flatten = .error (.mixedList
      ⟨[.field "b", .index 0, .field "m", .index 1, .field "z", .index 1]⟩) := by rfl
  obtain ⟨hiff, hfirst, -⟩ := flatten_reports_first hr
  exact ⟨hr, hfails, hiff.1 ⟨_, hfails⟩, hfirst⟩

end Record

end FlatRecord
