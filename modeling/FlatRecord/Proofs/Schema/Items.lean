import FlatRecord.Proofs.Record.ListItems
import FlatRecord.Proofs.Schema.FullSchema
import FlatRecord.Proofs.Schema.Routing

/-!
# The schema of an item

What an expansion has below an item of a list at the top of a record depends on what the record has
there and on nothing else, not even on the position of the item. If two flat records have the same
values below an item each (`SameItem`), their expansions have the same chains below the items
(`sameItem_full`), an entry is misplaced in both or in neither (`route_inItem_eq_misplaced_iff`), and the
completed records have the same values there (`sameItem_complete`).
-/

namespace FlatRecord

/-! ## Accepted objects and chains -/

variable {s : Schema} {r r' : Record} {f f' : FlatValues} {list : String} {i j : Nat}
  {rest : List Segment}

/-- The objects in the one item are accepted when those in the other are. -/
theorem Schema.Accepts.sameItem (hsame : SameItem list i j f f') {path : ItemPath}
    (h : s.Accepts f.keys ((list, i) :: path)) : s.Accepts f'.keys ((list, j) :: path) := by
  intro n hn hle
  obtain ⟨hnode, k, hk, hlength, hbegins⟩ := h n hn hle
  -- The conditions for the record itself are none, so the item is among the objects gone through.
  obtain ⟨m, rfl⟩ : ∃ m, n = m + 1 := ⟨n - 1, by omega⟩
  rw [List.take_succ_cons] at hnode hbegins ⊢
  refine ⟨hnode, ?_⟩
  -- The key goes on from the item, so the other record has the same entry at the other position.
  obtain ⟨more, hmore⟩ := List.isPrefixOf_iff_prefix.1 hbegins
  have hkey : k = .inItem list i (ItemPath.segments (path.take m) ++ more) := by
    rw [Key.inItem, ← List.cons_append, ← List.cons_append]
    exact congrArg Key.mk hmore.symm
  rw [hkey] at hk hlength
  refine ⟨_, hsame.mem_keys _ hk, hlength, ?_⟩
  exact List.isPrefixOf_iff_prefix.2 ⟨more, rfl⟩

/-- On the way to an accepted object there is an entry in the first item. -/
theorem Schema.Accepts.exists_inItem {keys : List Key} {path : ItemPath}
    (h : s.Accepts keys ((list, i) :: path)) : ∃ more, .inItem list i more ∈ keys := by
  obtain ⟨-, k, hk, -, hbegins⟩ := h 1 (Nat.le_refl _) (by rw [List.length_cons]; omega)
  obtain ⟨more, hmore⟩ := List.isPrefixOf_iff_prefix.1 hbegins
  have hkey : k = .inItem list i more := congrArg Key.mk hmore.symm
  rw [hkey] at hk
  exact ⟨more, hk⟩

namespace Expansion

/-- A node has the same chain for what is in the one item as for what is in the other. -/
theorem HasOwn.sameItem (hsame : SameItem list i j f f') {chain : Chain}
    (h : HasOwn s f (.inItem list i rest) chain) : HasOwn s f' (.inItem list j rest) chain := by
  obtain ⟨path, node, hpath, hnode, hmem⟩ := h
  obtain ⟨last, hkey, hown⟩ := Schema.exists_push_of_mem_ownEntries hmem
  obtain ⟨p, rfl, rfl⟩ := ItemPath.exists_of_push_eq_inItem hkey.symm
  exact ⟨(list, j) :: p, node, hpath.sameItem hsame, hnode, hown _⟩

section Flattened

variable (hs : s.Distinct) (hr : r.flatten = .ok f) (hr' : r'.flatten = .ok f')
  (hsame : SameItem list i j f f')

include hs hr

/-- Inside an item of a list the chains are those of the accepted objects. -/
theorem get?_full_inItem_iff {chain : Chain} :
    (Expansion.of s f).full.get? (.inItem list i rest) = some chain ↔
      HasOwn s f (.inItem list i rest) chain := by
  rw [get?_full_iff hs hr]
  refine or_iff_left fun ⟨hkey, _⟩ => ?_
  cases hkey

include hr' hsame

/-- The expansions have the same chains in the items. -/
theorem sameItem_full :
    SameItem list i j (Expansion.of s f).full (Expansion.of s f').full := by
  intro rest
  refine Option.ext fun chain => ?_
  rw [get?_full_inItem_iff hs hr, get?_full_inItem_iff hs hr']
  exact ⟨HasOwn.sameItem hsame, HasOwn.sameItem hsame.symm⟩

/-- The two records have chains under the same keys inside their items. -/
theorem contains_full_inItem : (Expansion.of s f).full.contains (.inItem list i rest) =
    (Expansion.of s f').full.contains (.inItem list j rest) :=
  congrArg Option.isSome (sameItem_full hs hr hr' hsame rest)

/-- An entry is misplaced in the one item when it is in the other. -/
theorem route_inItem_eq_misplaced_iff {v : Json} :
    (Expansion.of s f).route (.inItem list i rest) v = .misplaced ↔
      (Expansion.of s f').route (.inItem list j rest) v = .misplaced := by
  rw [route_eq_misplaced_iff, route_eq_misplaced_iff, contains_full_inItem hs hr hr' hsame]
  exact Iff.rfl

/-- An object inside the one item is accepted if its counterpart is. -/
theorem contains_accepted_inItem
    (h : (Expansion.of s f).accepted.contains (.inItem list i rest) = true) :
    (Expansion.of s f').accepted.contains (.inItem list j rest) = true := by
  obtain ⟨path, hkey, hpath⟩ := (contains_acceptedNodes_iff hs hr _).1 h
  obtain ⟨p, rfl, rfl⟩ := ItemPath.exists_of_key_eq_inItem hkey.symm
  exact (contains_acceptedNodes_iff hs hr' _).2 ⟨(list, j) :: p, rfl, hpath.sameItem hsame⟩

/-- What an object in the one item should not have, that in the other should not have. -/
theorem isExtra_inItem {name : String} (h : (Expansion.of s f).IsExtra (.inItem list i rest)
    ((Key.inItem list i rest).field name)) :
    (Expansion.of s f').IsExtra (.inItem list j rest) ((Key.inItem list j rest).field name) := by
  obtain ⟨hfull, haccepted, -⟩ := h
  refine ⟨?_, contains_accepted_inItem hs hr hr' hsame haccepted, Key.parent_field⟩
  exact (contains_full_inItem hs hr hr' hsame).symm.trans hfull

end Flattened

/-! ## Completed records -/

/-- The extras of an object are the fields directly in it that it should not have. -/
theorem ExtrasOf.get?_eq_some_iff {e : Expansion} {p : Key} {bucket : Record}
    (hfields : FieldKeys f) (h : e.ExtrasOf f.entries p bucket) {name : String} {v : Json} :
    bucket.get? name = some v ↔ f.get? (p.field name) = some v ∧ e.IsExtra p (p.field name) := by
  rw [h name v]
  constructor
  · rintro ⟨k, hmem, hextra, hname⟩
    have hget : f.get? k = some v := (SortedMap.get?_eq_some_iff f).2 hmem
    -- An extra of the object has the object's key as its parent, so its key is that of the field.
    obtain ⟨q, name', rfl⟩ := hfields k (SortedMap.mem_keys_of_get? hget)
    have hparent : q = p := Key.parent_field.symm.trans hextra.2.2
    rw [Key.last?_field] at hname
    have hsegment : name' = name := Option.some.inj hname
    subst hparent hsegment
    exact ⟨hget, hextra⟩
  · rintro ⟨hget, hextra⟩
    refine ⟨p.field name, (SortedMap.get?_eq_some_iff f).1 hget, hextra, ?_⟩
    rw [Key.last?_field]
    rfl

section Completed

variable (hs : s.Distinct) (hr : r.flatten = .ok f) (hr' : r'.flatten = .ok f')
  (hsame : SameItem list i j f f')

include hs hr hr' hsame

/-- An object has the same extras in the one item as in the other. -/
theorem ExtrasOf.eq_of_sameItem {bucket bucket' : Record}
    (h : (Expansion.of s f).ExtrasOf f.entries (.inItem list i rest) bucket)
    (h' : (Expansion.of s f').ExtrasOf f'.entries (.inItem list j rest) bucket') :
    bucket = bucket' := by
  refine SortedMap.ext_get? fun name => Option.ext fun v => ?_
  have hget : f.get? ((Key.inItem list i rest).field name) =
      f'.get? ((Key.inItem list j rest).field name) := hsame _
  rw [h.get?_eq_some_iff (fieldKeys_of_flatten hr), h'.get?_eq_some_iff (fieldKeys_of_flatten hr'), hget]
  exact and_congr_right fun _ =>
    ⟨isExtra_inItem hs hr hr' hsame, isExtra_inItem hs hr' hr hsame.symm⟩

/-- What the one completed record has in its item, the other has. -/
theorem get?_complete_inItem {a a' : FlatData} (ha : (Expansion.of s f).complete f = .ok a)
    (ha' : (Expansion.of s f').complete f' = .ok a') {d : Datum}
    (hd : a.get? (.inItem list i rest) = some d) : a'.get? (.inItem list j rest) = some d := by
  have hfields := fieldKeys_of_flatten hr
  have hfields' := fieldKeys_of_flatten hr'
  rcases key_of_get?_complete hfields ha hd with ⟨hfull, hcontrol⟩ | ⟨p, hkey, k, hk, hextra⟩ | ⟨hkey, -⟩
  · -- A field with a chain.
    rw [get?_complete_leaf hfields ha hfull hcontrol] at hd
    rw [contains_full_inItem hs hr hr' hsame] at hfull
    have hcontrol' : (Key.inItem list j rest).control? = none := by
      cases rest with
      | nil => rfl
      | cons s rest => exact hcontrol
    rw [get?_complete_leaf hfields' ha' hfull hcontrol', ← hsame rest, hd]
  · -- The extras of an object in the item.
    obtain ⟨path, hpath, -⟩ := (contains_acceptedNodes_iff hs hr p).1 hextra.2.1
    rw [hpath] at hkey
    obtain ⟨q, rfl, rfl⟩ := ItemPath.exists_of_push_eq_inItem hkey.symm
    have hp : p = .inItem list i (ItemPath.segments q) := hpath
    subst hp
    obtain ⟨p', name, rfl⟩ := hfields k hk
    have hparent : p' = .inItem list i (ItemPath.segments q) := Key.parent_field.symm.trans hextra.2.2
    subst hparent
    obtain ⟨bucket, hbucket, hof⟩ := exists_get?_complete_extras hfields ha ⟨_, hk, hextra⟩
    obtain ⟨bucket', hbucket', hof'⟩ := exists_get?_complete_extras hfields' ha'
      ⟨_, hsame.mem_keys (ItemPath.segments q ++ [Segment.field name]) hk,
        isExtra_inItem hs hr hr' hsame hextra⟩
    have hd : a.get? ((Key.inItem list i (ItemPath.segments q)).slot .extras) = some d := hd
    -- The two items have the same fields, so the extras of the two objects are one record.
    rw [hbucket] at hd
    rw [← hd, hof.eq_of_sameItem hs hr hr' hsame hof']
    exact hbucket'
  · -- The junk of the record is in no item.
    cases hkey

/-- The completed records have the same values in the items. -/
theorem sameItem_complete {a a' : FlatData} (ha : (Expansion.of s f).complete f = .ok a)
    (ha' : (Expansion.of s f').complete f' = .ok a') : SameItem list i j a a' := by
  intro rest
  refine Option.ext fun d => ?_
  exact ⟨get?_complete_inItem hs hr hr' hsame ha ha',
    get?_complete_inItem hs hr' hr hsame.symm ha' ha⟩

end Completed

end Expansion

end FlatRecord
