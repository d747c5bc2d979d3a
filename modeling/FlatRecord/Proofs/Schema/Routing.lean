import FlatRecord.Proofs.Record.Entries
import FlatRecord.Schema.Expansion

/-!
# Where the entries of a record go

An entry for which the expanded schema has no chain is an *extra* of an accepted object if it lies
directly in the object, and an *orphan* if the object it lies in is not accepted. `DeclaredOf`,
`ExtrasOf` and `OrphansOf` state what a completed record holds, without the pass that fills it: the
fields that have a chain, an extras slot for each accepted object that has extras, and the junk slot
if there are orphans (`key_of_get?_complete`).

The pass puts one entry after the other where it belongs, and its state describes the entries gone
through so far (`Routed.Holds`, `Routed.Holds.step`). Orphans share a place in the junk slot when
their keys have one text. Since the entries are gone through in key order, the greatest of these keys
keeps the place.
-/

namespace FlatRecord

namespace Expansion

variable {e : Expansion} {r r' : Routed} {entries done : List (Key × Json)} {k p q : Key} {v : Json}
  {name : String}

/-! ## Extras and orphans -/

/-- The key is that of an extra of the object at `p`: the object is accepted and the schema has no
chain for the key, which lies directly under it. -/
def IsExtra (e : Expansion) (p k : Key) : Prop :=
  e.full.contains k = false ∧ e.accepted.contains p = true ∧ k.parent = p

/-- The key is that of an orphan: the schema has no chain for it and does not accept the object in
which it lies. -/
def IsOrphan (e : Expansion) (k : Key) : Prop :=
  e.full.contains k = false ∧ e.accepted.contains k.parent = false

/-- The data of the entries that have a chain. -/
def DeclaredOf (e : Expansion) (entries : List (Key × Json)) (data : FlatData) : Prop :=
  ∀ k d, data.get? k = some d ↔
    ∃ v, (k, v) ∈ entries ∧ e.full.contains k = true ∧ d = .value v

/-- The object of the extras of the object at `p` among some entries: their last segments name the
values. -/
def ExtrasOf (e : Expansion) (entries : List (Key × Json)) (p : Key) (bucket : Record) : Prop :=
  ∀ name v, bucket.get? name = some v ↔
    ∃ k, (k, v) ∈ entries ∧ e.IsExtra p k ∧ k.last?.map Segment.name = some name

/-- The value of the greatest key among those of some entries that have a property. -/
def IsGreatest (entries : List (Key × Json)) (C : Key → Prop) (v : Json) : Prop :=
  ∃ k, (k, v) ∈ entries ∧ C k ∧ ∀ k' v', (k', v') ∈ entries → C k' → compare k' k ≠ .gt

/-- The object of the orphans among some entries: the texts of their keys name the values, and of
several keys with one text it is the greatest one whose value is there. -/
def OrphansOf (e : Expansion) (entries : List (Key × Json)) (bucket : Record) : Prop :=
  ∀ text v, bucket.get? text = some v ↔
    IsGreatest entries (fun k => e.IsOrphan k ∧ k.text = text) v

/-- Where an entry belongs that lies in the object at `q`. -/
theorem route_field (e : Expansion) (q : Key) (name : String) (v : Json) :
    e.route (q.field name) v =
      if e.full.contains (q.field name) then .declared
      else if e.template.leadsOn (q.field name).shape && !v.isEmptyList then .misplaced
      else if e.accepted.contains q then .extra (q.slot .extras) name
      else .junk (q.field name).text := by
  unfold route
  rw [Key.last?_field, Key.parent_field]
  rfl

/-- A routed entry with a chain is stored under its key, an extra in the extras slot of its object, and
an orphan in the junk slot. -/
theorem routeEntry_cases (h : e.routeEntry r (q.field name) v = .ok r') :
    (e.full.contains (q.field name) = true ∧
      r' = { r with declared := r.declared.insert (q.field name) (.value v) }) ∨
    (e.IsExtra q (q.field name) ∧ r' = { r with
      extras := r.extras.alter (q.slot .extras) fun old => some ((old.getD ∅).insert name v) }) ∨
    (e.IsOrphan (q.field name) ∧ r' = { r with junk := r.junk.insert (q.field name).text v }) := by
  have hparent : (q.field name).parent = q := Key.parent_field
  unfold routeEntry at h
  rw [route_field] at h
  -- The tests are made in the order in which an entry is routed: a chain, a template key, an object.
  by_cases hfull : e.full.contains (q.field name) = true
  · rw [if_pos hfull] at h
    cases h
    exact .inl ⟨hfull, rfl⟩
  · rw [if_neg hfull] at h
    have hfull := Bool.eq_false_iff.2 hfull
    by_cases hmis : (e.template.leadsOn (q.field name).shape && !v.isEmptyList) = true
    · rw [if_pos hmis] at h
      cases h
    · rw [if_neg hmis] at h
      by_cases hacc : e.accepted.contains q = true
      · rw [if_pos hacc] at h
        cases h
        exact .inr (.inl ⟨⟨hfull, hacc, hparent⟩, rfl⟩)
      · rw [if_neg hacc] at h
        cases h
        refine .inr (.inr ⟨⟨hfull, ?_⟩, rfl⟩)
        rw [hparent]
        exact Bool.eq_false_iff.2 hacc

/-! ## The pass -/

/-- The state of the pass holds the entries gone through, each in its place. -/
structure Routed.Holds (e : Expansion) (done : List (Key × Json)) (r : Routed) : Prop where
  /-- The entries with a chain are under their keys. -/
  declared : e.DeclaredOf done r.declared
  /-- The slot of each object has its extras. -/
  extras : ∀ p, e.ExtrasOf done p ((r.extras.get? (p.slot .extras)).getD ∅)
  /-- There are no slots but those of objects with extras. -/
  slots : ∀ slot bucket, r.extras.get? slot = some bucket →
    ∃ (p : Key) (name : String) (v : Json), slot = p.slot .extras ∧ bucket.get? name = some v
  /-- The junk has the orphans. -/
  junk : e.OrphansOf done r.junk

section Concat

variable {C : Key → Prop} {w : Json}

/-- After one more entry, an entry is one of those before or the new one. -/
theorem mem_concat_iff {k' : Key} :
    (k', w) ∈ done ++ [(k, v)] ↔ (k', w) ∈ done ∨ (k' = k ∧ w = v) := by
  rw [List.mem_append, List.mem_singleton, Prod.mk.injEq]

/-- An entry without a property adds nothing to the entries that have it. -/
theorem mem_concat_and_iff (hk : ¬ C k) {k' : Key} :
    ((k', w) ∈ done ++ [(k, v)] ∧ C k') ↔ ((k', w) ∈ done ∧ C k') := by
  refine and_congr_left fun hC => ?_
  rw [mem_concat_iff]
  refine or_iff_left fun ⟨he, _⟩ => ?_
  rw [he] at hC
  exact hk hC

/-- An entry without a property leaves the greatest key that has it. -/
theorem isGreatest_concat_of_not (hk : ¬ C k) :
    IsGreatest (done ++ [(k, v)]) C w ↔ IsGreatest done C w := by
  refine exists_congr fun k' => ?_
  rw [← and_assoc, ← and_assoc, mem_concat_and_iff hk]
  refine and_congr_right fun _ => forall_congr' fun k'' => forall_congr' fun v'' => ?_
  rw [← and_imp, mem_concat_and_iff hk, and_imp]

/-- An entry that comes after the others is the greatest one if it has the property. -/
theorem isGreatest_concat_self (hk : C k) (hlt : ∀ d ∈ done, compare d.1 k = .lt) :
    IsGreatest (done ++ [(k, v)]) C w ↔ w = v := by
  have hself : (k, v) ∈ done ++ [(k, v)] := List.mem_append_right _ List.mem_cons_self
  constructor
  · -- An earlier key is not the greatest one, since the last key has the property too.
    rintro ⟨k', hk', -, hmax⟩
    rcases mem_concat_iff.1 hk' with hk' | ⟨-, heq⟩
    · have hgt : compare k k' = .gt := Std.OrientedCmp.gt_of_lt (hlt _ hk')
      exact absurd hgt (hmax k v hself hk)
    · exact heq
  · -- Every earlier key is less than the last one.
    rintro rfl
    refine ⟨k, hself, hk, fun k' v' hk' _ => ?_⟩
    rcases mem_concat_iff.1 hk' with hk' | ⟨rfl, -⟩
    · rw [hlt _ hk']
      exact nofun
    · have heq : compare k' k' = .eq := Std.ReflCmp.compare_self
      rw [heq]
      exact nofun

end Concat

/-- An entry without a chain leaves the data of the entries that have one. -/
theorem DeclaredOf.concat {data : FlatData} (h : e.DeclaredOf done data)
    (hk : e.full.contains k = false) : e.DeclaredOf (done ++ [(k, v)]) data := by
  intro k' d
  rw [h k' d]
  refine exists_congr fun w => ?_
  rw [← and_assoc, ← and_assoc, @mem_concat_and_iff _ _ _ (e.full.contains · = true) _
    (Bool.eq_false_iff.1 hk)]

/-- An entry with a chain is stored under its key. -/
theorem DeclaredOf.insert {data : FlatData} (h : e.DeclaredOf done data)
    (hk : e.full.contains k = true) (hnew : ∀ w, (k, w) ∉ done) :
    e.DeclaredOf (done ++ [(k, v)]) (data.insert k (.value v)) := by
  intro k' d
  rw [SortedMap.get?_insert]
  by_cases he : k' = k
  · rw [if_pos he, he]
    simp [hnew, hk, eq_comm]
  · rw [if_neg he, h k' d]
    simp [he]

/-- An entry that is no extra of an object leaves its extras. -/
theorem ExtrasOf.concat {bucket : Record} (h : e.ExtrasOf done p bucket) (hk : ¬ e.IsExtra p k) :
    e.ExtrasOf (done ++ [(k, v)]) p bucket := by
  intro name w
  rw [h name w]
  refine exists_congr fun k' => ?_
  rw [← and_assoc, ← and_assoc, mem_concat_and_iff hk]

/-- An extra that comes after the others of its object is stored under its name. -/
theorem ExtrasOf.insert {bucket : Record} (h : e.ExtrasOf done q bucket)
    (hextra : e.IsExtra q (q.field name)) (hnew : ∀ w, (q.field name, w) ∉ done)
    (hfields : ∀ d ∈ done, ∃ (p : Key) (name : String), d.1 = p.field name) :
    e.ExtrasOf (done ++ [(q.field name, v)]) q (bucket.insert name v) := by
  have hlast : ∀ p n, ((p : Key).field n).last?.map Segment.name = some n := by
    intro p n
    rw [Key.last?_field]
    rfl
  intro name' w
  rw [SortedMap.get?_insert]
  by_cases hname : name' = name
  · rw [if_pos hname, hname, Option.some.injEq]
    constructor
    · -- The new extra has the name, and no other one.
      rintro rfl
      exact ⟨_, List.mem_append_right _ List.mem_cons_self, hextra, hlast q name⟩
    · rintro ⟨k, hk, ⟨-, -, hparent⟩, hkname⟩
      rcases mem_concat_iff.1 hk with hk | ⟨-, heq⟩
      · -- Another entry with this name in the object would have the same key.
        obtain ⟨p, n, rfl⟩ := hfields _ hk
        rw [hlast, Option.some.injEq] at hkname
        rw [Key.parent_field] at hparent
        rw [hparent, hkname] at hk
        exact absurd hk (hnew w)
      · exact heq.symm
  · -- Under other names the extras are as they were.
    rw [if_neg hname, h name' w]
    constructor
    · rintro ⟨k, hk, hrest⟩
      exact ⟨k, List.mem_append_left _ hk, hrest⟩
    · -- An extra under another name is not the new entry.
      rintro ⟨k, hk, hkextra, hkname⟩
      rcases mem_concat_iff.1 hk with hk | ⟨rfl, -⟩
      · exact ⟨k, hk, hkextra, hkname⟩
      · rw [hlast, Option.some.injEq] at hkname
        exact absurd hkname.symm hname

/-- An entry that is no orphan leaves the orphans. -/
theorem OrphansOf.concat {bucket : Record} (h : e.OrphansOf done bucket) (hk : ¬ e.IsOrphan k) :
    e.OrphansOf (done ++ [(k, v)]) bucket := by
  intro text w
  rw [h text w, isGreatest_concat_of_not fun hC => hk hC.1]

/-- An orphan that comes after the others takes the place of its text. -/
theorem OrphansOf.insert {bucket : Record} (h : e.OrphansOf done bucket) (hk : e.IsOrphan k)
    (hlt : ∀ d ∈ done, compare d.1 k = .lt) :
    e.OrphansOf (done ++ [(k, v)]) (bucket.insert k.text v) := by
  intro text w
  rw [SortedMap.get?_insert]
  by_cases htext : text = k.text
  · rw [if_pos htext, Option.some.injEq, isGreatest_concat_self ⟨hk, htext.symm⟩ hlt]
    exact eq_comm
  · rw [if_neg htext, h text w, isGreatest_concat_of_not fun hC => htext hC.2.symm]

/-- The state of the pass after an entry that has a chain. -/
theorem Routed.Holds.addDeclared (hr : r.Holds e done) (hfull : e.full.contains k = true)
    (hnew : ∀ w, (k, w) ∉ done) : Routed.Holds e (done ++ [(k, v)])
      { r with declared := r.declared.insert k (.value v) } where
  declared := hr.declared.insert hfull hnew
  extras p := by
    -- The key has a chain, and extras and orphans are the keys without one.
    refine (hr.extras p).concat fun hextra => ?_
    rw [hextra.1] at hfull
    cases hfull
  slots := hr.slots
  junk := by
    refine hr.junk.concat fun horphan => ?_
    rw [horphan.1] at hfull
    cases hfull

/-- The state of the pass after an extra. -/
theorem Routed.Holds.addExtra (hr : r.Holds e done) (hextra : e.IsExtra q (q.field name))
    (hnew : ∀ w, (q.field name, w) ∉ done)
    (hfields : ∀ d ∈ done, ∃ (p : Key) (name : String), d.1 = p.field name) :
    Routed.Holds e (done ++ [(q.field name, v)]) { r with
      extras := r.extras.alter (q.slot .extras) fun old => some ((old.getD ∅).insert name v) } where
  declared := hr.declared.concat hextra.1
  extras p := by
    show e.ExtrasOf _ p (((r.extras.alter _ _).get? (p.slot .extras)).getD ∅)
    rw [SortedMap.get?_alter_eq]
    by_cases hp : p = q
    · rw [if_pos (by rw [hp]), hp]
      exact (hr.extras q).insert hextra hnew hfields
    · -- Objects at different keys have different slots, and an extra lies in one object.
      have hslot : p.slot .extras ≠ q.slot .extras := fun he => hp (Key.slot_inj.1 he).1
      rw [if_neg hslot]
      exact (hr.extras p).concat fun h => hp (h.2.2.symm.trans hextra.2.2)
  slots slot bucket hslot := by
    have hslot : (r.extras.alter _ _).get? slot = some bucket := hslot
    rw [SortedMap.get?_alter_eq] at hslot
    by_cases hq : slot = q.slot .extras
    · rw [if_pos hq, Option.some.injEq] at hslot
      refine ⟨q, name, v, hq, ?_⟩
      rw [← hslot, SortedMap.get?_insert_self]
    · rw [if_neg hq] at hslot
      exact hr.slots slot bucket hslot
  junk := by
    refine hr.junk.concat fun horphan => ?_
    have hno : e.accepted.contains (q.field name).parent = false := horphan.2
    rw [hextra.2.2, hextra.2.1] at hno
    cases hno

/-- The state of the pass after an orphan. -/
theorem Routed.Holds.addOrphan (hr : r.Holds e done) (horphan : e.IsOrphan k)
    (hlt : ∀ d ∈ done, compare d.1 k = .lt) :
    Routed.Holds e (done ++ [(k, v)]) { r with junk := r.junk.insert k.text v } where
  declared := hr.declared.concat horphan.1
  extras p := by
    refine (hr.extras p).concat fun hextra => ?_
    have hno : e.accepted.contains k.parent = false := horphan.2
    rw [hextra.2.2, hextra.2.1] at hno
    cases hno
  slots := hr.slots
  junk := hr.junk.insert horphan hlt

/-- One more entry, which comes after the others, is put in its place. -/
theorem Routed.Holds.step (hr : r.Holds e done) (hlt : ∀ d ∈ done, compare d.1 (q.field name) = .lt)
    (hfields : ∀ d ∈ done, ∃ (p : Key) (name : String), d.1 = p.field name)
    (hstep : e.routeEntry r (q.field name) v = .ok r') :
    r'.Holds e (done ++ [(q.field name, v)]) := by
  have hnew : ∀ w, (q.field name, w) ∉ done := fun w hw => Ascending.ne_of_lt (hlt _ hw) rfl
  rcases routeEntry_cases hstep with ⟨hfull, rfl⟩ | ⟨hextra, rfl⟩ | ⟨horphan, rfl⟩
  · exact hr.addDeclared hfull hnew
  · exact hr.addExtra hextra hnew hfields
  · exact hr.addOrphan horphan hlt

/-- The pass over a flat record holds all its entries in their places. -/
theorem holds_routeAll {f : FlatValues}
    (hfields : ∀ k ∈ f.keys, ∃ (p : Key) (name : String), k = p.field name)
    (h : e.routeAll f = .ok r) : r.Holds e f.entries := by
  refine foldlM_induction ?start ?step h
  case start =>
    -- At the start the state is empty and no entry is gone through.
    refine ⟨fun k d => ?_, fun p name v => ?_, nofun, fun text v => ?_⟩
    · exact ⟨nofun, fun ⟨v, hmem, _⟩ => nomatch hmem⟩
    · exact ⟨nofun, fun ⟨k, hmem, _⟩ => nomatch hmem⟩
    · exact ⟨nofun, fun ⟨k, hmem, _⟩ => nomatch hmem⟩
  case step =>
    -- The entries come in key order, so the next one is greater than those before.
    intro done entry rest r r' hentries hstep hr
    obtain ⟨k, v⟩ := entry
    have hkeys : ∀ d ∈ done ++ [(k, v)], d.1 ∈ f.keys := by
      intro d hd
      refine List.mem_map.2 ⟨d, ?_, rfl⟩
      rw [hentries, List.append_cons]
      exact List.mem_append_left _ hd
    obtain ⟨q, name, rfl⟩ := hfields k (hkeys (k, v) (List.mem_append_right _ List.mem_cons_self))
    exact hr.step (fun d hd => f.lt_of_append hentries hd)
      (fun d hd => hfields d.1 (hkeys d (List.mem_append_left _ hd))) hstep

/-- A misplaced entry is the error. -/
theorem routeEntry_of_misplaced (r : Routed) (h : e.route k v = .misplaced) :
    e.routeEntry r k v = .error (.misplaced k v.typeName) := by
  unfold routeEntry
  rw [h]

/-- A pass that ends has met no misplaced entry. -/
theorem route_ne_misplaced {f : FlatValues} (h : e.routeAll f = .ok r) (hk : f.get? k = some v) :
    e.route k v ≠ .misplaced := by
  have hall : ∀ entry ∈ f.entries, e.route entry.1 entry.2 ≠ .misplaced := by
    refine @foldlM_induction _ _ _ _ (fun done _ => ∀ entry ∈ done, e.route entry.1 entry.2 ≠ .misplaced)
      f.entries _ r (fun entry hentry => absurd hentry List.not_mem_nil) ?_ h
    intro done entry rest r r' _ hstep hdone d hd
    rcases List.mem_append.1 hd with hd | hd
    · exact hdone d hd
    · -- The pass would have failed at the entry.
      rw [List.mem_singleton.1 hd]
      intro hroute
      rw [routeEntry_of_misplaced r hroute] at hstep
      cases hstep
  exact hall (k, v) ((SortedMap.get?_eq_some_iff f).1 hk)

/-- An entry is misplaced when it has no chain and is not the empty list, where the schema leads on. -/
theorem route_eq_misplaced_iff : e.route k v = .misplaced ↔ e.full.contains k = false ∧
    e.template.leadsOn k.shape = true ∧ v.isEmptyList = false := by
  unfold route
  by_cases hfull : e.full.contains k = true
  · -- With a chain the entry is declared.
    rw [if_pos hfull, hfull]
    exact ⟨nofun, fun h => nomatch h.1⟩
  · have hnone : e.full.contains k = false := Bool.eq_false_iff.2 hfull
    rw [if_neg hfull]
    by_cases hmisplaced : (e.template.leadsOn k.shape && !v.isEmptyList) = true
    · rw [if_pos hmisplaced]
      rw [Bool.and_eq_true, Bool.not_eq_true'] at hmisplaced
      exact ⟨fun _ => ⟨hnone, hmisplaced⟩, fun _ => rfl⟩
    · -- In the other cases it is an extra or junk.
      rw [if_neg hmisplaced]
      rw [Bool.and_eq_true, Bool.not_eq_true'] at hmisplaced
      refine ⟨fun h => ?_, fun h => absurd h.2 hmisplaced⟩
      split at h
      · split at h <;> cases h
      · cases h

/-- An entry that is not misplaced is put somewhere. -/
theorem exists_routeEntry (e : Expansion) (r : Routed) (h : e.route k v ≠ .misplaced) :
    ∃ r', e.routeEntry r k v = .ok r' := by
  unfold routeEntry
  cases hroute : e.route k v with
  | declared => exact ⟨_, rfl⟩
  | misplaced => exact absurd hroute h
  | extra slot name => exact ⟨_, rfl⟩
  | junk text => exact ⟨_, rfl⟩

/-- A pass over entries ends, from any state, when none of them is misplaced. -/
theorem exists_foldlM_routeEntry {entries : List (Key × Json)}
    (h : ∀ entry ∈ entries, e.route entry.1 entry.2 ≠ .misplaced) :
    ∃ r', entries.foldlM (fun r entry => e.routeEntry r entry.1 entry.2) r = .ok r' := by
  induction entries generalizing r with
  | nil => exact ⟨r, rfl⟩
  | cons entry rest ih =>
    obtain ⟨hentry, hrest⟩ := List.forall_mem_cons.1 h
    obtain ⟨r', hr'⟩ := exists_routeEntry e r hentry
    rw [List.foldlM_cons, hr']
    exact ih hrest

/-- A record can be completed when none of its entries is misplaced. -/
theorem exists_complete_iff {f : FlatValues} : (∃ a, e.complete f = .ok a) ↔
    ∀ k v, f.get? k = some v → e.route k v ≠ .misplaced := by
  have hcomplete : (∃ a, e.complete f = .ok a) ↔ ∃ r, e.routeAll f = .ok r := by
    unfold complete
    cases e.routeAll f with
    | error err => exact ⟨nofun, nofun⟩
    | ok r => exact ⟨fun _ => ⟨r, rfl⟩, fun _ => ⟨_, rfl⟩⟩
  rw [hcomplete]
  constructor
  · rintro ⟨r, hr⟩ k v hk
    exact route_ne_misplaced hr hk
  · intro h
    exact exists_foldlM_routeEntry fun entry hentry =>
      h entry.1 entry.2 ((SortedMap.get?_eq_some_iff f).2 hentry)

/-! ## Completed records -/

/-- The sorted entries with the junk in its slot. -/
def Routed.withJunk (r : Routed) : FlatData :=
  if r.junk.isEmpty then r.declared
  else r.declared.insert (Key.root.slot .junk) (.value (.ofRecord r.junk))

/-- The junk bucket is found in the slot for junk, unless it is empty, and under other keys the declared
values. -/
theorem Routed.get?_withJunk (r : Routed) (key : Key) : r.withJunk.get? key =
    if key = Key.root.slot .junk ∧ r.junk.isEmpty = false then some (.value (.ofRecord r.junk))
    else r.declared.get? key := by
  unfold withJunk
  cases hjunk : r.junk.isEmpty with
  | true => simp
  | false => simp [SortedMap.get?_insert]

/-- A key of a completed record is an extras slot, or the key of a field that has a chain, or has what
the pass stored under it. -/
theorem get?_complete {f : FlatValues} {a : FlatData} (h : e.complete f = .ok a) :
    ∃ r, e.routeAll f = .ok r ∧ ∀ key, a.get? key =
      ((r.extras.get? key).map fun bucket => .value (.ofRecord bucket)).or
        (if key ∈ e.leafKeys then some ((r.withJunk.get? key).getD .missing)
        else r.withJunk.get? key) := by
  unfold complete at h
  cases hr : e.routeAll f with
  | error err => rw [hr] at h; cases h
  | ok r =>
    rw [hr] at h
    cases h
    -- What the state of the pass has is stored with the missing leaves, and the extras over it.
    refine ⟨r, rfl, fun key => ?_⟩
    show ((e.leafKeys.foldl (fun data key => data.insertIfNew key .missing) r.withJunk).insertMany
      (r.extras.entries.map fun b => (b.1, Datum.value (.ofRecord b.2)))).get? key = _
    rw [SortedMap.get?_insertMany_map _ r.extras fun bucket => Datum.value (.ofRecord bucket),
      SortedMap.get?_foldl_insertIfNew]

/-- The leaf keys are those with a chain that end in no slot. -/
theorem mem_leafKeys_iff : k ∈ e.leafKeys ↔ e.full.contains k = true ∧ k.control? = none := by
  unfold leafKeys
  rw [List.mem_filter, SortedMap.mem_keys, Option.isNone_iff_eq_none]

/-- A record is empty when no name has a value in it. -/
theorem isEmpty_eq_false_iff {m : Record} : m.isEmpty = false ↔ ∃ name v, m.get? name = some v := by
  simp only [SortedMap.get?_eq_some_iff]
  obtain ⟨entries, hsorted⟩ := m
  cases entries with
  | nil => simp [SortedMap.isEmpty]
  | cons entry rest => exact ⟨fun _ => ⟨entry.1, entry.2, List.mem_cons_self⟩, fun _ => rfl⟩

/-- If a key among ascending entries has a property, one of those that have it is the greatest. -/
theorem exists_isGreatest {C : Key → Prop} (hsorted : Ascending.Sorted entries)
    (h : ∃ k v, (k, v) ∈ entries ∧ C k) : ∃ w, IsGreatest entries C w := by
  induction entries with
  | nil =>
    obtain ⟨k, v, hk, -⟩ := h
    cases hk
  | cons entry rest ih =>
    obtain ⟨k₀, v₀⟩ := entry
    unfold Ascending.Sorted at hsorted
    rw [List.pairwise_cons] at hsorted
    by_cases hrest : ∃ k v, (k, v) ∈ rest ∧ C k
    · -- The greatest one further on is greater than the first entry.
      obtain ⟨w, k, hk, hC, hmax⟩ := ih hsorted.2 hrest
      refine ⟨w, k, List.mem_cons_of_mem _ hk, hC, fun k' v' hk' hC' => ?_⟩
      rcases List.mem_cons.1 hk' with he | hk'
      · rw [Prod.mk.injEq] at he
        have hlt : compare k₀ k = .lt := hsorted.1 (k, w) hk
        rw [he.1, hlt]
        decide
      · exact hmax k' v' hk' hC'
    · -- No entry further on has the property, so the first one does.
      obtain ⟨k, v, hk, hC⟩ := h
      refine ⟨v, k, hk, hC, fun k' v' hk' hC' => ?_⟩
      have hfirst : ∀ {k v}, (k, v) ∈ (k₀, v₀) :: rest → C k → k = k₀ := by
        intro k v hk hC
        rcases List.mem_cons.1 hk with he | hk
        · exact (Prod.mk.inj he).1
        · exact absurd ⟨k, v, hk, hC⟩ hrest
      have heq : compare k₀ k₀ = .eq := Std.ReflCmp.compare_self
      rw [hfirst hk' hC', hfirst hk hC, heq]
      decide

section Complete

variable {f : FlatValues} {a : FlatData} {key : Key}

/-- Every key of the flat record is that of a field of an object. -/
def FieldKeys (f : FlatValues) : Prop := ∀ k ∈ f.keys, ∃ (p : Key) (name : String), k = p.field name

/-- Extras are found in slots for extras only. -/
theorem Routed.Holds.get?_extras_eq_none (hr : r.Holds e entries)
    (hkey : ∀ p : Key, key ≠ p.slot .extras) : r.extras.get? key = none := by
  cases hslot : r.extras.get? key with
  | none => rfl
  | some bucket =>
    obtain ⟨p, -, -, he, -⟩ := hr.slots key bucket hslot
    exact absurd he (hkey p)

/-- An object has a slot in the state of the pass when it has extras. -/
theorem Routed.Holds.exists_extra_iff (hr : r.Holds e f.entries) (hfields : FieldKeys f) :
    (∃ k ∈ f.keys, e.IsExtra p k) ↔ ∃ bucket, r.extras.get? (p.slot .extras) = some bucket := by
  constructor
  · rintro ⟨k, hk, hextra⟩
    obtain ⟨q, name, rfl⟩ := hfields k hk
    obtain ⟨v, hv⟩ := SortedMap.mem_keys_iff.1 hk
    have hmem := (SortedMap.get?_eq_some_iff f).1 hv
    have hname : (q.field name).last?.map Segment.name = some name := by
      rw [Key.last?_field]
      rfl
    have hv := (hr.extras p name v).2 ⟨_, hmem, hextra, hname⟩
    -- Without a slot the object would have no extras in the state of the pass.
    cases hslot : r.extras.get? (p.slot .extras) with
    | some bucket => exact ⟨bucket, rfl⟩
    | none =>
      rw [hslot] at hv
      cases hv
  · -- A slot of the state has some extra in it, which comes from an entry of the record.
    rintro ⟨bucket, hslot⟩
    obtain ⟨q, name, v, hq, hv⟩ := hr.slots _ _ hslot
    have hextras := hr.extras p name v
    rw [hslot] at hextras
    obtain ⟨k, hk, hextra, -⟩ := hextras.1 hv
    exact ⟨k, List.mem_map.2 ⟨_, hk, rfl⟩, hextra⟩

/-- There is junk in the state of the pass when there are orphans. -/
theorem Routed.Holds.exists_orphan_iff (hr : r.Holds e f.entries) :
    (∃ k ∈ f.keys, e.IsOrphan k) ↔ r.junk.isEmpty = false := by
  rw [isEmpty_eq_false_iff]
  constructor
  · rintro ⟨k, hk, horphan⟩
    obtain ⟨⟨k, v⟩, hmem, rfl⟩ := List.mem_map.1 hk
    obtain ⟨w, hw⟩ := @exists_isGreatest f.entries (fun k' => e.IsOrphan k' ∧ k'.text = k.text)
      f.sorted ⟨k, v, hmem, horphan, rfl⟩
    exact ⟨k.text, w, (hr.junk k.text w).2 hw⟩
  · rintro ⟨text, v, hv⟩
    obtain ⟨k, hk, ⟨horphan, -⟩, -⟩ := (hr.junk text v).1 hv
    exact ⟨k, List.mem_map.2 ⟨_, hk, rfl⟩, horphan⟩

/-- A key that has a chain holds the value of the record in the state of the pass. -/
theorem Routed.Holds.get?_declared (hr : r.Holds e f.entries) (hkey : e.full.contains key = true) :
    r.declared.get? key = (f.get? key).map .value := by
  cases hv : f.get? key with
  | some v =>
    have hmem : (key, v) ∈ f.entries := (SortedMap.get?_eq_some_iff f).1 hv
    exact (hr.declared key (.value v)).2 ⟨v, hmem, hkey, rfl⟩
  | none =>
    cases hd : r.declared.get? key with
    | none => rfl
    | some d =>
      obtain ⟨v, hmem, -⟩ := (hr.declared key d).1 hd
      rw [(SortedMap.get?_eq_some_iff f).2 hmem] at hv
      cases hv

/-- What a completed record holds, by the state of the pass that filled it. -/
theorem exists_holds_complete (hfields : FieldKeys f) (h : e.complete f = .ok a) :
    ∃ r : Routed, r.Holds e f.entries ∧ ∀ key, a.get? key =
      ((r.extras.get? key).map fun bucket => .value (.ofRecord bucket)).or
        (if key ∈ e.leafKeys then some ((r.withJunk.get? key).getD .missing)
        else r.withJunk.get? key) := by
  obtain ⟨r, hrun, hget⟩ := get?_complete h
  exact ⟨r, holds_routeAll hfields hrun, hget⟩

/-- A completed record has a value under every key of a leaf field: that of the record if it has one,
and the missing value otherwise. -/
theorem get?_complete_leaf (hfields : FieldKeys f) (h : e.complete f = .ok a)
    (hkey : e.full.contains key = true) (hcontrol : key.control? = none) :
    a.get? key = some ((f.get? key).elim .missing .value) := by
  obtain ⟨r, hr, hget⟩ := exists_holds_complete hfields h
  -- The key is no slot, so neither the extras nor the junk are stored under it.
  have hslot : ∀ (p : Key) (c : Control), key ≠ p.slot c := by
    rintro p c rfl
    rw [Key.control?_slot] at hcontrol
    cases hcontrol
  have hnone : r.extras.get? key = none := hr.get?_extras_eq_none fun p => hslot p _
  rw [hget, hnone, if_pos (mem_leafKeys_iff.2 ⟨hkey, hcontrol⟩), Routed.get?_withJunk,
    if_neg fun hjunk => hslot .root .junk hjunk.1, hr.get?_declared hkey]
  cases f.get? key with
  | none => rfl
  | some v => rfl

/-- A completed record has the extras of an object in the slot of the object. -/
theorem exists_get?_complete_extras (hfields : FieldKeys f) (h : e.complete f = .ok a)
    (hp : ∃ k ∈ f.keys, e.IsExtra p k) : ∃ bucket,
      a.get? (p.slot .extras) = some (.value (.ofRecord bucket)) ∧ e.ExtrasOf f.entries p bucket := by
  obtain ⟨r, hr, hget⟩ := exists_holds_complete hfields h
  obtain ⟨bucket, hbucket⟩ := (hr.exists_extra_iff hfields).1 hp
  have hextras := hr.extras p
  rw [hbucket] at hextras
  refine ⟨bucket, ?_, hextras⟩
  rw [hget, hbucket]
  rfl

/-- A completed record has the orphans in the junk slot. -/
theorem exists_get?_complete_junk (hfields : FieldKeys f) (h : e.complete f = .ok a)
    (ho : ∃ k ∈ f.keys, e.IsOrphan k) : ∃ bucket,
      a.get? (Key.root.slot .junk) = some (.value (.ofRecord bucket)) ∧
        e.OrphansOf f.entries bucket := by
  obtain ⟨r, hr, hget⟩ := exists_holds_complete hfields h
  have hnone : r.extras.get? (Key.root.slot .junk) = none := by
    refine hr.get?_extras_eq_none fun p he => ?_
    cases (Key.slot_inj.1 he).2
  have hleaf : Key.root.slot .junk ∉ e.leafKeys := by
    intro hmem
    have hcontrol := (mem_leafKeys_iff.1 hmem).2
    rw [Key.control?_slot] at hcontrol
    cases hcontrol
  refine ⟨r.junk, ?_, hr.junk⟩
  rw [hget, hnone, if_neg hleaf, Routed.get?_withJunk, if_pos ⟨rfl, hr.exists_orphan_iff.1 ho⟩]
  rfl

/-- A completed record has no keys but those of leaf fields, the extras slots of objects with extras
and the junk slot, if there are orphans. -/
theorem key_of_get?_complete (hfields : FieldKeys f) (h : e.complete f = .ok a) {d : Datum}
    (hd : a.get? key = some d) : (e.full.contains key = true ∧ key.control? = none) ∨
      (∃ p, key = p.slot .extras ∧ ∃ k ∈ f.keys, e.IsExtra p k) ∨
      (key = Key.root.slot .junk ∧ ∃ k ∈ f.keys, e.IsOrphan k) := by
  obtain ⟨r, hr, hget⟩ := exists_holds_complete hfields h
  rw [hget] at hd
  cases hbucket : r.extras.get? key with
  | some bucket =>
    obtain ⟨p, -, -, rfl, -⟩ := hr.slots key bucket hbucket
    exact .inr (.inl ⟨p, rfl, (hr.exists_extra_iff hfields).2 ⟨bucket, hbucket⟩⟩)
  | none =>
    rw [hbucket, Option.map_none, Option.none_or] at hd
    by_cases hleaf : key ∈ e.leafKeys
    · exact .inl (mem_leafKeys_iff.1 hleaf)
    · rw [if_neg hleaf, Routed.get?_withJunk] at hd
      by_cases hjunk : key = Key.root.slot .junk ∧ r.junk.isEmpty = false
      · exact .inr (.inr ⟨hjunk.1, hr.exists_orphan_iff.2 hjunk.2⟩)
      · -- What is left is an entry of the record, whose key is that of a field.
        rw [if_neg hjunk] at hd
        obtain ⟨v, hmem, hfull, -⟩ := (hr.declared key d).1 hd
        obtain ⟨q, name, rfl⟩ := hfields key (List.mem_map.2 ⟨_, hmem, rfl⟩)
        exact .inl ⟨hfull, Key.control?_field⟩

/-- A completed record has nothing in the extras slot of an object without extras. -/
theorem get?_complete_extras_eq_none (hfields : FieldKeys f) (h : e.complete f = .ok a)
    (hp : ¬ ∃ k ∈ f.keys, e.IsExtra p k) : a.get? (p.slot .extras) = none := by
  refine Option.eq_none_iff_forall_ne_some.2 fun d hd => ?_
  rcases key_of_get?_complete hfields h hd with ⟨-, hcontrol⟩ | ⟨q, hkey, hq⟩ | ⟨hkey, -⟩
  · rw [Key.control?_slot] at hcontrol
    cases hcontrol
  · rw [(Key.slot_inj.1 hkey).1] at hp
    exact hp hq
  · cases (Key.slot_inj.1 hkey).2

/-- A completed record has nothing in the junk slot when there are no orphans. -/
theorem get?_complete_junk_eq_none (hfields : FieldKeys f) (h : e.complete f = .ok a)
    (ho : ¬ ∃ k ∈ f.keys, e.IsOrphan k) : a.get? (Key.root.slot .junk) = none := by
  refine Option.eq_none_iff_forall_ne_some.2 fun d hd => ?_
  rcases key_of_get?_complete hfields h hd with ⟨-, hcontrol⟩ | ⟨p, hkey, -⟩ | ⟨-, horphan⟩
  · rw [Key.control?_slot] at hcontrol
    cases hcontrol
  · cases (Key.slot_inj.1 hkey).2
  · exact ho horphan

/-- A completed record has nothing under a field that has no chain. -/
theorem get?_complete_field_eq_none (hfields : FieldKeys f) (h : e.complete f = .ok a)
    (hfull : e.full.contains (q.field name) = false) : a.get? (q.field name) = none := by
  refine Option.eq_none_iff_forall_ne_some.2 fun d hd => ?_
  rcases key_of_get?_complete hfields h hd with ⟨hchain, -⟩ | ⟨p, hkey, -⟩ | ⟨hkey, -⟩
  · rw [hfull] at hchain
    cases hchain
  · exact Key.field_ne_slot hkey
  · exact Key.field_ne_slot hkey

end Complete

end Expansion

variable {s : Schema} {r : Record} {f : FlatValues} {a : FlatData}

/-- The keys of a flat record are those of fields. -/
theorem fieldKeys_of_flatten (h : r.flatten = .ok f) : Expansion.FieldKeys f := by
  intro k hk
  obtain ⟨path, name, hkey⟩ := Record.exists_eq_field_of_mem_keys h hk
  exact ⟨path.key, name, hkey⟩

/-- A flat record filled up to the expansion of a schema has these keys and no others: each field that
has a chain, with its value or missing; the extras slot of each accepted object that has extras, with
the object of its extras; and the junk slot if there are orphans, with the object of the orphans. -/
theorem complete_exact (h : r.flatten = .ok f) (ha : (Expansion.of s f).complete f = .ok a) :
    (∀ key, (Expansion.of s f).full.contains key = true → key.control? = none →
      a.get? key = some ((f.get? key).elim .missing .value)) ∧
    (∀ p, (∃ k ∈ f.keys, (Expansion.of s f).IsExtra p k) → ∃ bucket,
      a.get? (p.slot .extras) = some (.value (.ofRecord bucket)) ∧
        (Expansion.of s f).ExtrasOf f.entries p bucket) ∧
    ((∃ k ∈ f.keys, (Expansion.of s f).IsOrphan k) → ∃ bucket,
      a.get? (Key.root.slot .junk) = some (.value (.ofRecord bucket)) ∧
        (Expansion.of s f).OrphansOf f.entries bucket) ∧
    ∀ key d, a.get? key = some d →
      ((Expansion.of s f).full.contains key = true ∧ key.control? = none) ∨
      (∃ p, key = p.slot .extras ∧ ∃ k ∈ f.keys, (Expansion.of s f).IsExtra p k) ∨
      (key = Key.root.slot .junk ∧ ∃ k ∈ f.keys, (Expansion.of s f).IsOrphan k) := by
  have hfields := fieldKeys_of_flatten h
  refine ⟨fun key hkey hcontrol => ?_, fun p hp => ?_, fun ho => ?_, fun key d hd => ?_⟩
  · exact Expansion.get?_complete_leaf hfields ha hkey hcontrol
  · exact Expansion.exists_get?_complete_extras hfields ha hp
  · exact Expansion.exists_get?_complete_junk hfields ha ho
  · exact Expansion.key_of_get?_complete hfields ha hd

/-- A list of objects with one field. -/
def listed : Schema where
  fields := [("a", .sub { fields := [("c", .leaf [])] })]

/-- A record for it with extras of three objects, an object without the field, and two orphans whose
keys have one text. -/
def strayed : Record where
  entries := [("a", .arr [.obj [("c", .int 1), ("x", .int 2)], .obj [("y", .int 3)]]), ("s", .int 4),
    ("z", .arr [.obj [("q", .arr [.obj [("w", .int 5)]]), ("q[0].w", .int 6)]])]
  sorted := by decide

/-- What flattening sees in it. -/
def strayedFlat : FlatValues := .ofList [
  (⟨[.field "s"]⟩, .int 4),
  (⟨[.field "a", .index 0, .field "c"]⟩, .int 1),
  (⟨[.field "a", .index 0, .field "x"]⟩, .int 2),
  (⟨[.field "a", .index 1, .field "y"]⟩, .int 3),
  (⟨[.field "z", .index 0, .field "q[0].w"]⟩, .int 6),
  (⟨[.field "z", .index 0, .field "q", .index 0, .field "w"]⟩, .int 5)]

/-- What it is filled up to. -/
def strayedData : FlatData := .ofList [
  (⟨[.field "a", .index 0, .field "c"]⟩, .value (.int 1)),
  (⟨[.field "a", .index 1, .field "c"]⟩, .missing),
  (⟨[.control .extras]⟩, .value (.obj [("s", .int 4)])),
  (⟨[.field "a", .index 0, .control .extras]⟩, .value (.obj [("x", .int 2)])),
  (⟨[.field "a", .index 1, .control .extras]⟩, .value (.obj [("y", .int 3)])),
  (⟨[.control .junk]⟩, .value (.obj [("z[0].q[0].w", .int 5)]))]

/-- Of the fields of `strayed` one is declared and three are extras, and of two orphans with the same text the
greater key counts. -/
theorem complete_exact_strayed :
    strayed.flatten = .ok strayedFlat ∧
    (Expansion.of listed strayedFlat).complete strayedFlat = .ok strayedData ∧
    (∀ key, (Expansion.of listed strayedFlat).full.contains key = true → key.control? = none →
      strayedData.get? key = some ((strayedFlat.get? key).elim .missing .value)) ∧
    (∀ p, (∃ k ∈ strayedFlat.keys, (Expansion.of listed strayedFlat).IsExtra p k) → ∃ bucket,
      strayedData.get? (p.slot .extras) = some (.value (.ofRecord bucket)) ∧
        (Expansion.of listed strayedFlat).ExtrasOf strayedFlat.entries p bucket) ∧
    ((∃ k ∈ strayedFlat.keys, (Expansion.of listed strayedFlat).IsOrphan k) → ∃ bucket,
      strayedData.get? (Key.root.slot .junk) = some (.value (.ofRecord bucket)) ∧
        (Expansion.of listed strayedFlat).OrphansOf strayedFlat.entries bucket) ∧
    ∀ key d, strayedData.get? key = some d →
      ((Expansion.of listed strayedFlat).full.contains key = true ∧ key.control? = none) ∨
      (∃ p, key = p.slot .extras ∧
        ∃ k ∈ strayedFlat.keys, (Expansion.of listed strayedFlat).IsExtra p k) ∨
      (key = Key.root.slot .junk ∧
        ∃ k ∈ strayedFlat.keys, (Expansion.of listed strayedFlat).IsOrphan k) :=
  have hflat : strayed.flatten = .ok strayedFlat := rfl
  have hdata : (Expansion.of listed strayedFlat).complete strayedFlat = .ok strayedData := rfl
  ⟨hflat, hdata, complete_exact hflat hdata⟩

end FlatRecord
