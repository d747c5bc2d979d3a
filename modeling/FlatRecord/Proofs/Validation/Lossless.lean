import FlatRecord.Proofs.Validation.Clearing
import FlatRecord.Proofs.Validation.Concatenation

/-!
# Validation without loss

When every node of a schema keeps the fields that it does not name, and there are no other validators, a
run moves values but loses none: the outcome is the flat record nested again (`validate_lossless`).

During the run the extras of an object are in its slot or under their own keys already. `Work.read?`
reads a field wherever it is, and keeping the extras of an object does not change what is read
(`read?_run_keepExtras`). In the end the slots are empty, so each field is read under its own key.
-/

namespace FlatRecord

/-- The key is that of a field of an object. -/
def Key.IsField (k : Key) : Prop := ∃ (p : Key) (name : String), k = p.field name

/-! ## Reading a record through its slots -/

namespace Work

/-- What is in the extras slot of an object. -/
def bucket (w : Work) (p : Key) : Record :=
  SortedMap.ofList (Presence.bucketFields (w.datum (p.slot .extras)))

/-- A field of an object, read from the extras slot of the object or else under its own key. -/
def read? (w : Work) (p : Key) (name : String) : Option Json :=
  ((w.bucket p).get? name).or (w.datum (p.field name)).json?

/-- Every field is read as a flat record has it. -/
def Reads (w : Work) (f : FlatValues) : Prop :=
  ∀ p name, w.read? p name = f.get? (p.field name)

end Work

section Keep

variable {w : Work} {p q k : Key} {name : String}

/-- When values are stored in the fields of an object, a field has the last value stored in it, or what it
had before. -/
theorem get?_insertMany_fields (p : Key) (fields : List (String × Json)) (data : FlatData)
    (name : String) :
    (data.insertMany (fields.map fun f => (p.field f.1, Datum.value f.2))).get? (p.field name) =
      (((SortedMap.ofList fields : Record).get? name).map Datum.value).or
        (data.get? (p.field name)) := by
  -- The two sides go through the fields together, from any record that has stored as much as the data.
  have run : ∀ (data : FlatData) (r : Record) (d : Option Datum),
      data.get? (p.field name) = ((r.get? name).map Datum.value).or d →
      (data.insertMany (fields.map fun f => (p.field f.1, Datum.value f.2))).get? (p.field name) =
        (((r.insertMany fields).get? name).map Datum.value).or d := by
    induction fields with
    | nil => exact fun data r d h => h
    | cons field rest ih =>
      intro data r d h
      -- Both sides store the first field, and go on with the rest.
      refine ih (data.insert (p.field field.1) (.value field.2)) (r.insert field.1 field.2) d ?_
      rw [SortedMap.get?_insert, SortedMap.get?_insert]
      by_cases hname : name = field.1
      · rw [if_pos hname, if_pos (congrArg p.field hname)]
        rfl
      · rw [if_neg hname, if_neg fun hkey => hname (Key.field_inj.1 hkey).2, h]
  exact run data ∅ _ rfl

/-- Keeping the extras of an object makes fields of what is in its slot, and empties the slot. -/
theorem run_keepExtras (p : Key) (w : Work) :
    Chain.run (p.slot .extras) [Rule.keepExtras.validator] w = w.patch
      ⟨(Presence.bucketFields (w.datum (p.slot .extras))).map fun f => (p.field f.1, Datum.value f.2),
        [p.slot .extras]⟩ := by
  have hsibling : ∀ name, Presence.sibling (p.slot .extras) name = p.field name := by
    intro name
    unfold Presence.sibling
    rw [Key.parent_slot]
  show w.patch ⟨(Presence.bucketFields (w.datum (p.slot .extras))).map
    fun f => (Presence.sibling (p.slot .extras) f.1, Datum.value f.2), [p.slot .extras]⟩ = _
  simp only [hsibling]

/-- A field of the object has what was in the slot under its name, or what it had before. -/
theorem get?_run_keepExtras_field :
    (Chain.run (p.slot .extras) [Rule.keepExtras.validator] w).data.get? (p.field name) =
      (((w.bucket p).get? name).map Datum.value).or (w.data.get? (p.field name)) := by
  rw [run_keepExtras]
  refine (get?_insertMany_fields p _ _ name).trans ?_
  rw [List.foldl_cons, List.foldl_nil, SortedMap.get?_erase_of_ne _ Key.field_ne_slot]
  rfl

/-- The slot is empty. -/
theorem get?_run_keepExtras_slot :
    (Chain.run (p.slot .extras) [Rule.keepExtras.validator] w).data.get? (p.slot .extras) = none := by
  rw [run_keepExtras]
  refine (SortedMap.get?_insertMany_of_not_mem _ fun hmem => ?_).trans (SortedMap.get?_erase_self _ _)
  rw [List.map_map] at hmem
  obtain ⟨field, -, hkey⟩ := List.mem_map.1 hmem
  exact Key.field_ne_slot hkey

/-- Every other key keeps what it had. -/
theorem get?_run_keepExtras_other (hfield : ∀ name, k ≠ p.field name) (hslot : k ≠ p.slot .extras) :
    (Chain.run (p.slot .extras) [Rule.keepExtras.validator] w).data.get? k = w.data.get? k := by
  rw [run_keepExtras]
  refine (SortedMap.get?_insertMany_of_not_mem _ fun hmem => ?_).trans
    (SortedMap.get?_erase_of_ne _ hslot)
  rw [List.map_map] at hmem
  obtain ⟨field, -, hkey⟩ := List.mem_map.1 hmem
  exact hfield field.1 hkey.symm

/-- Keeping the extras of an object changes nothing of what is read. -/
theorem read?_run_keepExtras :
    (Chain.run (p.slot .extras) [Rule.keepExtras.validator] w).read? q name = w.read? q name := by
  unfold Work.read?
  by_cases hq : q = p
  · subst hq
    -- What was read from the slot is under its own key now.
    have hbucket : (Chain.run (q.slot .extras) [Rule.keepExtras.validator] w).bucket q = ∅ := by
      unfold Work.bucket Work.datum
      rw [get?_run_keepExtras_slot]
      rfl
    rw [hbucket, SortedMap.get?_empty, Option.none_or]
    unfold Work.datum
    rw [get?_run_keepExtras_field]
    cases (w.bucket q).get? name with
    | none => rfl
    | some v => rfl
  · -- At another object neither the slot nor the fields are touched.
    have hfield : (Chain.run (p.slot .extras) [Rule.keepExtras.validator] w).data.get? (q.field name) =
        w.data.get? (q.field name) :=
      get?_run_keepExtras_other (fun _ hkey => hq (Key.field_inj.1 hkey).1) Key.field_ne_slot
    have hslot : (Chain.run (p.slot .extras) [Rule.keepExtras.validator] w).data.get? (q.slot .extras) =
        w.data.get? (q.slot .extras) :=
      get?_run_keepExtras_other (fun _ hkey => Key.field_ne_slot hkey.symm)
        fun hkey => hq (Key.slot_inj.1 hkey).1
    unfold Work.bucket Work.datum
    rw [hfield, hslot]

/-- Keeping the extras of an object clears the slot and adds values under the keys of fields only. -/
theorem clears_keepExtras :
    Chain.Clears Key.IsField (p.slot .extras) [Rule.keepExtras.validator] := by
  intro w k hk
  by_cases hfield : ∃ name, k = p.field name
  · -- A field of the object.
    obtain ⟨name, rfl⟩ := hfield
    exact .inl ⟨p, name, rfl⟩
  · refine .inr ?_
    -- Any other key was there before, and is not the slot, which is gone.
    by_cases hslot : k = p.slot .extras
    · rw [hslot, SortedMap.contains, get?_run_keepExtras_slot] at hk
      cases hk
    · rw [SortedMap.contains, get?_run_keepExtras_other (not_exists.1 hfield) hslot] at hk
      exact ⟨hk, hslot⟩

end Keep

/-! ## Validation -/

/-- Every node keeps the fields that it does not name, and there are no other validators. -/
structure Schema.KeepsAll (s : Schema) : Prop where
  /-- The nodes, the schema itself included. -/
  nodes : s.EveryNode (OnlyExtras [Rule.keepExtras.validator] (· = []))
  /-- Junk is left to no chain. -/
  junk : s.junk = none

section Validation

variable {s : Schema} {r : Record} {f : FlatValues} {a : FlatData} {c : Context} {w : Work} {k p : Key}
  {name : String}

namespace Expansion

/-- The slot of an object in a completed record has the extras of the object. -/
theorem get?_bucket_startWork_iff (hr : r.flatten = .ok f)
    (ha : (Expansion.of s f).complete f = .ok a) {v : Json} :
    ((startWork (Expansion.of s f) a c).bucket p).get? name = some v ↔
      f.get? (p.field name) = some v ∧ (Expansion.of s f).IsExtra p (p.field name) := by
  have hfields := fieldKeys_of_flatten hr
  unfold Work.bucket Work.datum startWork
  dsimp only
  by_cases hp : ∃ k ∈ f.keys, (Expansion.of s f).IsExtra p k
  · obtain ⟨bucket, hbucket, hof⟩ := exists_get?_complete_extras hfields ha hp
    have hentries : SortedMap.ofList bucket.entries = bucket :=
      SortedMap.eq_of_entries_eq (SortedMap.entries_ofList bucket.sorted)
    rw [hbucket, Option.getD_some]
    show (SortedMap.ofList bucket.entries).get? name = some v ↔ _
    rw [hentries, hof.get?_eq_some_iff hfields]
  · -- Without extras the slot is not there.
    rw [get?_complete_extras_eq_none hfields ha hp]
    constructor
    · intro hget
      cases hget
    · rintro ⟨hget, hextra⟩
      exact absurd ⟨_, SortedMap.mem_keys_of_get? hget, hextra⟩ hp

/-- Every field is read from a completed record as the flat record has it, when all objects with entries
are accepted. -/
theorem reads_startWork (hr : r.flatten = .ok f) (ha : (Expansion.of s f).complete f = .ok a)
    (haccepted : ∀ k ∈ f.keys, (Expansion.of s f).accepted.contains k.parent = true) :
    (startWork (Expansion.of s f) a c).Reads f := by
  have hfields := fieldKeys_of_flatten hr
  intro p name
  have hbucket := @get?_bucket_startWork_iff s r f a c p name hr ha
  unfold Work.read? Work.datum
  show Option.or _ ((a.get? (p.field name)).getD .missing).json? = _
  cases hfull : (Expansion.of s f).full.contains (p.field name) with
  | true =>
    -- A field with a chain is no extra.
    have hnone : ((startWork (Expansion.of s f) a c).bucket p).get? name = none := by
      refine Option.eq_none_iff_forall_ne_some.2 fun v hv => ?_
      rw [(hbucket.1 hv).2.1] at hfull
      cases hfull
    rw [hnone, Option.none_or, get?_complete_leaf hfields ha hfull Key.control?_field]
    cases f.get? (p.field name) with
    | none => rfl
    | some v => rfl
  | false =>
    -- A field without a chain is an extra of its object, which is accepted.
    rw [get?_complete_field_eq_none hfields ha hfull]
    show Option.or _ none = _
    rw [Option.or_none]
    refine Option.ext fun v => hbucket.trans ⟨fun h => h.1, fun hget => ⟨hget, hfull, ?_, ?_⟩⟩
    · have hparent := haccepted _ (SortedMap.mem_keys_of_get? hget)
      rwa [Key.parent_field] at hparent
    · exact Key.parent_field

end Expansion

/-- Nothing is put back when all names have values. -/
theorem putBack_eq_self {names : List String} {r : Record}
    (h : ∀ name ∈ names, ∃ v, r.get? name = some v) : putBack names r = r := by
  refine SortedMap.ext_get? fun name => ?_
  rw [get?_putBack]
  by_cases hmem : name ∈ names
  · obtain ⟨v, hv⟩ := h name hmem
    rw [if_pos hmem, hv, Option.getD_some]
  · rw [if_neg hmem]

/-- The names of the lists that are put back have values in the record that the flat form is nested to. -/
theorem exists_get?_nest_of_mem_restored (hr : r.flatten = .ok f)
    (hname : name ∈ if c.fixPartialUpdates then emptyLists r else []) :
    ∃ v, f.nest.get? name = some v := by
  have hget : r.get? name = some (.arr []) := get?_of_mem_restored hname
  have hholds : Json.Holds r.entries [] name (.arr []) :=
    Json.holds_nil.2 ⟨(SortedMap.get?_eq_some_iff r).1 hget, rfl⟩
  obtain ⟨v, hv⟩ := Record.exists_get?_flatten hr hholds
  exact FlatValues.exists_get?_nest hv

section Keeps

variable (hs : s.Distinct) (hkeeps : s.KeepsAll) (hr : r.flatten = .ok f)

include hs hkeeps hr

/-- A turn in a schema that keeps everything is that of a leaf field without validators, or keeps the
extras of an object. -/
theorem cases_of_mem_schedule {turn : Key × Chain} (hturn : turn ∈ schedule (Expansion.of s f).full) :
    (∃ (path : ItemPath) (name : String), turn = (path.key.field name, [])) ∨
      ∃ path : ItemPath, turn = (path.key.slot .extras, [Rule.keepExtras.validator]) := by
  obtain ⟨key, chain⟩ := turn
  rcases Expansion.get?_full_cases hs hr hkeeps.nodes (get?_of_mem_schedule hturn) with
    ⟨⟨path, node, name, -, -, -, -, hkey⟩, hchain⟩ | ⟨path, hkey, hchain⟩ | ⟨-, hjunk⟩
  · exact .inl ⟨path, name, Prod.ext hkey hchain⟩
  · exact .inr ⟨path, Prod.ext hkey hchain⟩
  · exact absurd (hkeeps.junk.symm.trans hjunk) nofun

/-- A run has the messages with which it starts: an empty list for every key with a chain. -/
theorem messages_validateFlat (hw : validateFlat f s c = .ok w) :
    w.messages = (Expansion.of s f).full.map fun _ => [] := by
  obtain ⟨a, -, rfl⟩ := validateFlat_eq_ok_iff.1 hw
  refine runChains_invariant (P := fun w => w.messages = (Expansion.of s f).full.map fun _ => [])
    (fun turn hturn w hmessages => ?_) rfl
  rcases cases_of_mem_schedule hs hkeeps hr hturn with ⟨path, name, rfl⟩ | ⟨path, rfl⟩
  · exact hmessages
  · rw [run_keepExtras]
    exact hmessages

/-- The lists of messages that a run leaves are empty. -/
theorem eq_nil_of_get?_messages (hw : validateFlat f s c = .ok w) {l : List String}
    (hl : w.messages.get? k = some l) : l = [] := by
  rw [messages_validateFlat hs hkeeps hr hw, SortedMap.get?_map] at hl
  obtain ⟨-, -, rfl⟩ := Option.map_eq_some_iff.1 hl
  rfl

/-- Messages are under the keys of the fields and slots of objects. -/
theorem exists_push_of_mem_messages (hw : validateFlat f s c = .ok w) (hk : k ∈ w.messages.keys) :
    ∃ (path : ItemPath) (last : Segment),
      k = path.key.push last ∧ last.FitsIn (fun _ => True) .object := by
  obtain ⟨l, hl⟩ := SortedMap.mem_keys_iff.1 hk
  rw [messages_validateFlat hs hkeeps hr hw, SortedMap.get?_map] at hl
  obtain ⟨chain, hget, -⟩ := Option.map_eq_some_iff.1 hl
  have hturn := Expansion.mem_schedule_of_get?_full hget
  rcases cases_of_mem_schedule hs hkeeps hr hturn with ⟨path, name, heq⟩ | ⟨path, heq⟩
  · exact ⟨path, .field name, (Prod.mk.inj heq).1, trivial⟩
  · exact ⟨path, .control .extras, (Prod.mk.inj heq).1, trivial⟩

/-- The tree of the messages that a run leaves is empty. -/
theorem tree_messages_validateFlat (hw : validateFlat f s c = .ok w) : w.messages.tree = ∅ := by
  refine @Messages.tree_eq_empty_of_alternates w.messages (fun _ => True) (fun k hk => ?_)
    (fun k hk i hi => ?_) fun k l hl => eq_nil_of_get?_messages hs hkeeps hr hw hl
  · obtain ⟨path, last, rfl, hlast⟩ := exists_push_of_mem_messages hs hkeeps hr hw hk
    exact ItemPath.alternates_append (fun _ _ => trivial) ⟨hlast, fun _ => rfl, trivial⟩
  · obtain ⟨path, last, rfl, hlast⟩ := exists_push_of_mem_messages hs hkeeps hr hw hk
    rw [Key.last?_push, Option.some.injEq] at hi
    rw [hi] at hlast
    exact hlast

/-- A run leaves fields of objects only: the slots are empty in the end. -/
theorem isField_of_validateFlat (hw : validateFlat f s c = .ok w)
    (haccepted : ∀ k ∈ f.keys, (Expansion.of s f).accepted.contains k.parent = true)
    (hk : w.data.contains k = true) : k.IsField := by
  obtain ⟨a, ha, -⟩ := validateFlat_eq_ok_iff.1 hw
  refine kept_of_validateFlat ha (fun k hk => ?_) (fun k chain hget => ?_) hw hk
  · refine Expansion.contains_full_of_contains_complete hs hr hkeeps.nodes ha ?_ hk
    -- Entries lie in accepted objects, so there are no orphans and no junk.
    rintro ⟨k, hk, -, horphan⟩
    rw [haccepted k hk] at horphan
    cases horphan
  · -- A turn is that of a field, whose chain writes there alone, or of an extras slot.
    have hturn := Expansion.mem_schedule_of_get?_full hget
    rcases cases_of_mem_schedule hs hkeeps hr hturn with ⟨path, name, heq⟩ | ⟨path, heq⟩
    · cases heq
      intro w' k' hk'
      by_cases hkey : k' = path.key.field name
      · exact .inl ⟨path.key, name, hkey⟩
      · exact .inr ⟨hk', hkey⟩
    · cases heq
      exact clears_keepExtras

/-- Every field is read from the data that a run leaves as the flat record has it. -/
theorem reads_validateFlat (hw : validateFlat f s c = .ok w)
    (haccepted : ∀ k ∈ f.keys, (Expansion.of s f).accepted.contains k.parent = true) : w.Reads f := by
  obtain ⟨a, ha, rfl⟩ := validateFlat_eq_ok_iff.1 hw
  refine runChains_invariant (P := fun w => w.Reads f) (fun turn hturn w hreads => ?_)
    (Expansion.reads_startWork hr ha haccepted)
  rcases cases_of_mem_schedule hs hkeeps hr hturn with ⟨path, name, rfl⟩ | ⟨path, rfl⟩
  · exact hreads
  · exact fun p name => read?_run_keepExtras.trans (hreads p name)

/-- A run leaves the values of the flat record, each under its own key. -/
theorem supplied_validateFlat (hw : validateFlat f s c = .ok w)
    (haccepted : ∀ k ∈ f.keys, (Expansion.of s f).accepted.contains k.parent = true) :
    FlatData.supplied w.data = f := by
  have hfield : ∀ k, w.data.contains k = true → k.IsField :=
    fun k hk => isField_of_validateFlat hs hkeeps hr hw haccepted hk
  refine SortedMap.ext_get? fun k => ?_
  rw [FlatData.get?_supplied]
  unfold FlatData.datum
  by_cases hk : k.IsField
  · obtain ⟨p, name, rfl⟩ := hk
    -- The slot of the object is empty by now, so the field is read under its own key.
    have hslot : w.data.get? (p.slot .extras) = none := by
      refine SortedMap.contains_eq_false_iff.1 (Bool.eq_false_iff.2 fun hcontains => ?_)
      obtain ⟨q, name', hkey⟩ := hfield _ hcontains
      exact Key.field_ne_slot hkey.symm
    have hread := reads_validateFlat hs hkeeps hr hw haccepted p name
    unfold Work.read? Work.bucket Work.datum at hread
    rw [hslot] at hread
    exact hread
  · -- Neither the state nor the flat record has a key that is not that of a field.
    have hnone : w.data.get? k = none :=
      SortedMap.contains_eq_false_iff.1 (Bool.eq_false_iff.2 fun hcontains => hk (hfield k hcontains))
    rw [hnone]
    refine (Option.eq_none_iff_forall_ne_some.2 fun v hv => ?_).symm
    exact hk (fieldKeys_of_flatten hr k (SortedMap.mem_keys_of_get? hv))

end Keeps

/-- With a schema that keeps everything, a record whose entries all lie in accepted objects is validated
without loss: the outcome has the flat record nested again, and no messages. -/
theorem validate_lossless {o : Outcome} (hs : s.Distinct) (hkeeps : s.KeepsAll)
    (hr : r.flatten = .ok f)
    (haccepted : ∀ k ∈ f.keys, k.parent = .root ∨
      (Expansion.of s f).accepted.contains k.parent = true)
    (ho : validate r s c = .ok o) : o.data = f.nest ∧ o.fieldErrors = [] ∧ o.errors = ∅ := by
  obtain ⟨f', w, hr', hw, rfl⟩ := validate_eq_ok_iff.1 ho
  cases hr.symm.trans hr'
  -- The root is always accepted.
  have haccepted' : ∀ k ∈ f.keys, (Expansion.of s f).accepted.contains k.parent = true := by
    intro k hk
    rcases haccepted k hk with hroot | h
    · rw [hroot]
      exact (contains_acceptedNodes_iff hs hr .root).2 ⟨[], rfl, Schema.accepts_nil⟩
    · exact h
  refine ⟨?_, ?_, ?_⟩
  · show putBack _ (FlatData.supplied w.data).nest = f.nest
    rw [supplied_validateFlat hs hkeeps hr hw haccepted']
    exact putBack_eq_self fun name hname => exists_get?_nest_of_mem_restored hr hname
  · refine List.isEmpty_iff.1 (Messages.isEmpty_fieldErrors_iff.2 fun k l hl => ?_)
    exact eq_nil_of_get?_messages hs hkeeps hr hw hl
  · exact tree_messages_validateFlat hs hkeeps hr hw

end Validation

/-- Lists of objects on two levels, all of which keep what they do not name. -/
def hoarding : Schema where
  fields := [
    ("a", .leaf []),
    ("b", .sub {
      fields := [("c", .leaf []), ("d", .sub { extras := some [Rule.keepExtras.validator] })],
      extras := some [Rule.keepExtras.validator] })]
  extras := some [Rule.keepExtras.validator]

/-- A record for it with fields that no node names, empty lists, and an object without fields. -/
def motley : Record where
  entries := [
    ("b", .arr [.obj [], .obj [("c", .int 1), ("d", .arr [.obj [("e", .null)]]), ("f", .arr [])],
      .obj [("d", .arr []), ("g", .obj [("h", .int 2)])]]),
    ("i", .str "j"), ("k", .arr [])]
  sorted := by decide

/-- What flattening sees in it. -/
def motleyFlat : FlatValues := .ofList [
  (⟨[.field "i"]⟩, .str "j"), (⟨[.field "k"]⟩, .arr []),
  (⟨[.field "b", .index 1, .field "c"]⟩, .int 1),
  (⟨[.field "b", .index 1, .field "f"]⟩, .arr []),
  (⟨[.field "b", .index 2, .field "d"]⟩, .arr []),
  (⟨[.field "b", .index 2, .field "g"]⟩, .obj [("h", .int 2)]),
  (⟨[.field "b", .index 1, .field "d", .index 0, .field "e"]⟩, .null)]

/-- Fields that no node names, empty lists and an object without fields come out as they went in. -/
theorem validate_lossless_motley :
    hoarding.Distinct ∧ hoarding.KeepsAll ∧ motley.flatten = .ok motleyFlat ∧
      (∀ k ∈ motleyFlat.keys, k.parent = .root ∨
        (Expansion.of hoarding motleyFlat).accepted.contains k.parent = true) ∧
      ∃ o, validate motley hoarding {} = .ok o ∧
        (o.data = motleyFlat.nest ∧ o.fieldErrors = [] ∧ o.errors = ∅) ∧
        o.data.entries = [
          ("b", .arr [.obj [("c", .int 1), ("d", .arr [.obj [("e", .null)]]), ("f", .arr [])],
            .obj [("d", .arr []), ("g", .obj [("h", .int 2)])]]),
          ("i", .str "j"), ("k", .arr [])] := by
  have hs : hoarding.Distinct := by decide
  have hkeeps : hoarding.KeepsAll := by
    refine ⟨.of_fields ⟨rfl, rfl, rfl, by simp [hoarding]⟩ fun name inner hfield => ?_, rfl⟩
    obtain ⟨-, rfl⟩ : name = "b" ∧ inner = _ := by simpa [hoarding] using hfield
    refine .of_fields ⟨rfl, rfl, rfl, by simp⟩ fun name inner hfield => ?_
    obtain ⟨-, rfl⟩ : name = "d" ∧ inner = _ := by simpa using hfield
    exact .of_fields ⟨rfl, rfl, rfl, nofun⟩ nofun
  have hr : motley.flatten = .ok motleyFlat := rfl
  have haccepted : ∀ k ∈ motleyFlat.keys, k.parent = .root ∨
      (Expansion.of hoarding motleyFlat).accepted.contains k.parent = true := by decide
  obtain ⟨o, ho⟩ : ∃ o, validate motley hoarding {} = .ok o := ⟨_, rfl⟩
  refine ⟨hs, hkeeps, hr, haccepted, o, ho, validate_lossless hs hkeeps hr haccepted ho, ?_⟩
  cases ho
  rfl

end FlatRecord
