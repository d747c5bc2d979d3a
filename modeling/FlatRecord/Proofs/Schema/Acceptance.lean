import FlatRecord.Proofs.Record.Entries
import FlatRecord.Proofs.Schema.Nodes

/-!
# The accepted objects of a record

`acceptedNodes` finds the accepted objects in one pass over the keys of a flat record, consulting the
set that it is still filling. `Schema.Accepts` says without the pass which objects these are: on the
way from the record to the object, every list is one for which the schema has a node with a chain,
and every object has an entry directly in it. `contains_acceptedNodes_iff` shows that the two agree.

The invariant of the pass is the same statement about the keys gone through so far. It is kept because
keys come in the order of their lengths: when an entry of an object is met, the entries of the objects
around it have been met, and none of those inside it (`accepts_concat_keys_iff`).
-/

namespace FlatRecord

/-! ## Keys of entries -/

namespace ItemPath

variable {p q : ItemPath} {name : String}

/-- The key of a field in an object has two segments for each list on the way, and one for the name. -/
theorem length_key_field (q : ItemPath) (name : String) :
    (q.key.field name).length = 2 * q.length + 1 := by
  have hkey : q.key.length = 2 * q.length := length_segments q
  unfold Key.field
  rw [Key.length_push, hkey]

/-- Of the keys that begin with that of an object, those of the entries directly in it have one more
segment. -/
theorem startsWith_key_iff : (q.key.field name).length = 2 * p.length + 1 ∧
    (q.key.field name).startsWith p.key = true ↔ q = p := by
  rw [length_key_field, Key.startsWith, List.isPrefixOf_iff_prefix]
  constructor
  · rintro ⟨hlength, hbegins⟩
    -- Both paths are of one length and begin the same key, so the one is a beginning of the other.
    have hlengths : (segments p).length = (segments q).length := by
      rw [length_segments, length_segments]
      omega
    have hbefore : segments q <+: (q.key.field name).segments := List.prefix_append _ _
    have hpq : segments p <+: segments q :=
      List.prefix_of_prefix_length_le hbegins hbefore (Nat.le_of_eq hlengths)
    exact (segments_injective (hpq.eq_of_length hlengths)).symm
  · rintro rfl
    exact ⟨rfl, List.prefix_append _ _⟩

/-- The object around the one in which an entry lies. -/
theorem dropLast_key_field (q : ItemPath) (name : String) :
    (q.key.field name).dropLast 3 = ItemPath.key q.dropLast := by
  rcases List.eq_nil_or_concat q with rfl | ⟨p, step, rfl⟩
  · rfl
  · rw [List.concat_eq_append, List.dropLast_concat, Key.dropLast, length_key_field,
      List.length_append, List.length_singleton, Key.take, key, Key.mk.injEq, Key.field, Key.push, key,
      segments_append, List.append_assoc]
    refine List.take_left' ?_
    rw [length_segments]
    omega

/-- The shape of the key of an object is the key at the end of the names of the lists. -/
theorem shape_key_eq_under (p : ItemPath) : p.key.shape = Key.root.under p.names := by
  have h : Key.root.under p.names = ⟨p.names.map .field⟩ :=
    congrArg Key.mk (Key.segments_under .root p.names)
  rw [shape_key, h]

/-- The shape of the key of a field has the names of the lists gone into and that of the field. -/
theorem shape_key_field (p : ItemPath) (name : String) :
    (p.key.field name).shape = Key.root.under (p.names ++ [name]) := by
  rw [Key.field, shape_key_push, shape_key_eq_under, Key.under_concat, Key.field]

end ItemPath

namespace Schema

variable {s node : Schema} {path q : ItemPath} {keys done : List Key} {k : Key}

/-- The node of an object is the one that the names of the lists around it lead to. -/
theorem descend?_key (s : Schema) (path : ItemPath) : s.descend? path.key = s.nested? path.names := by
  induction path generalizing s with
  | nil => rfl
  | cons step path ih =>
    obtain ⟨name, position⟩ := step
    refine Option.bind_congr fun inner _ => ?_
    exact ih inner

/-! ## Accepted objects -/

/-- The object at a path is accepted: each list on the way is one for which the schema has a node with
a chain, and of each object on the way there is an entry directly in it among the keys. -/
def Accepts (s : Schema) (keys : List Key) (path : ItemPath) : Prop :=
  ∀ j, 1 ≤ j → j ≤ path.length →
    (∃ node, s.nested? (ItemPath.names (path.take j)) = some node ∧ node.HasChain) ∧
      ∃ k ∈ keys, k.length = 2 * j + 1 ∧ k.startsWith (ItemPath.key (path.take j)) = true

/-- The record itself is accepted. -/
theorem accepts_nil : s.Accepts keys [] := by
  intro j hj hle
  rw [List.length_nil] at hle
  omega

/-- More keys accept more objects. -/
theorem Accepts.mono {keys' : List Key} (h : s.Accepts keys path) (hkeys : keys ⊆ keys') :
    s.Accepts keys' path := by
  intro j hj hle
  obtain ⟨hnode, k, hk, hbelow⟩ := h j hj hle
  exact ⟨hnode, k, hkeys hk, hbelow⟩

/-- An object in a list is accepted when the object that holds the list is, the schema has a node with
a chain for the list and the object has an entry directly in it. -/
theorem accepts_concat_iff {step : String × Nat} : s.Accepts keys (path ++ [step]) ↔
    s.Accepts keys path ∧
      (∃ node, s.nested? (ItemPath.names (path ++ [step])) = some node ∧ node.HasChain) ∧
      ∃ k ∈ keys, k.length = 2 * (path ++ [step]).length + 1 ∧
        k.startsWith (ItemPath.key (path ++ [step])) = true := by
  have hlength : (path ++ [step]).length = path.length + 1 := List.length_append
  constructor
  · -- From the longer path: the conditions on the objects around are those of the shorter one.
    intro h
    refine ⟨fun j hj hle => ?_, ?_⟩
    · have hj := h j hj (by omega)
      rw [List.take_append_of_le_length hle] at hj
      exact hj
    · have hlast := h (path ++ [step]).length (by omega) (Nat.le_refl _)
      rw [List.take_length] at hlast
      exact hlast
  · -- The last object on the way is the new one; the others are those on the way before.
    rintro ⟨houter, hlast⟩ j hj hle
    rcases Nat.lt_or_ge path.length j with hlt | hge
    · have heq : j = (path ++ [step]).length := by omega
      rw [heq, List.take_length]
      exact hlast
    · rw [List.take_append_of_le_length hge]
      exact houter j hj hge

/-- The node of an accepted object. -/
theorem Accepts.exists_nested (h : s.Accepts keys path) :
    ∃ node, s.nested? path.names = some node ∧ (path ≠ [] → node.HasChain) := by
  rcases List.eq_nil_or_concat path with rfl | ⟨p, step, rfl⟩
  · exact ⟨s, rfl, fun hne => absurd rfl hne⟩
  · rw [List.concat_eq_append] at h ⊢
    obtain ⟨-, ⟨node, hnode, hchain⟩, -⟩ := accepts_concat_iff.1 h
    exact ⟨node, hnode, fun _ => hchain⟩

/-! ## One more key -/

/-- When an object in a list is accepted thanks to a key that is not shorter than the others, the
object that holds the list is accepted without that key. -/
theorem Accepts.of_concat {step : String × Nat} (hlengths : ∀ d ∈ done, d.length ≤ k.length)
    (h : s.Accepts (done ++ [k]) (path ++ [step])) : s.Accepts done path := by
  obtain ⟨houter, -, last, hlast, hlength, -⟩ := accepts_concat_iff.1 h
  -- An entry directly in the inner object is among the keys, and `k` is not shorter than it. Entries
  -- directly in the objects around are shorter, so `k` is none of them.
  have hk : 2 * (path.length + 1) + 1 ≤ k.length := by
    rw [List.length_append, List.length_singleton] at hlength
    rcases List.mem_append.1 hlast with hlast | hlast
    · have hle : last.length ≤ k.length := hlengths last hlast
      omega
    · rw [List.mem_singleton.1 hlast] at hlength
      omega
  intro j hj hle
  obtain ⟨hnode, d, hd, hdlength, hbegins⟩ := houter j hj hle
  refine ⟨hnode, d, ?_, hdlength, hbegins⟩
  rcases List.mem_append.1 hd with hd | hd
  · exact hd
  · rw [List.mem_singleton.1 hd] at hdlength
    omega

/-- One more key, not shorter than the others, adds the object in which it lies if the schema has a
node with a chain for it and the object around it is accepted already. -/
theorem accepts_concat_keys_iff {name : String} (hk : k = q.key.field name)
    (hlengths : ∀ d ∈ done, d.length ≤ k.length) : s.Accepts (done ++ [k]) path ↔
      s.Accepts done path ∨ (path = q ∧ q ≠ [] ∧
        (∃ node, s.nested? q.names = some node ∧ node.HasChain) ∧ s.Accepts done q.dropLast) := by
  constructor
  · intro h
    rcases List.eq_nil_or_concat path with rfl | ⟨p, step, rfl⟩
    · exact .inl accepts_nil
    · rw [List.concat_eq_append] at h ⊢
      have houter := h.of_concat hlengths
      obtain ⟨-, hnode, d, hd, hown⟩ := accepts_concat_iff.1 h
      rcases List.mem_append.1 hd with hd | hd
      · -- A key that was there before lies directly in the object.
        exact .inl (accepts_concat_iff.2 ⟨houter, hnode, d, hd, hown⟩)
      · -- The object is accepted thanks to the new key, so it is the one in which that entry lies.
        rw [List.mem_singleton.1 hd, hk] at hown
        rw [ItemPath.startsWith_key_iff.1 hown, List.dropLast_concat]
        refine .inr ⟨rfl, List.append_ne_nil_of_right_ne_nil _ (List.cons_ne_nil _ _), hnode, houter⟩
  · rintro (h | ⟨rfl, hne, hnode, houter⟩)
    · -- An object accepted before stays so.
      exact h.mono (List.subset_append_left _ _)
    · -- The object of the new key: the one around it was accepted before.
      rcases List.eq_nil_or_concat path with rfl | ⟨p, step, rfl⟩
      · exact absurd rfl hne
      · rw [List.concat_eq_append] at hnode hk houter ⊢
        rw [List.dropLast_concat] at houter
        refine accepts_concat_iff.2 ⟨houter.mono (List.subset_append_left _ _), hnode, k, ?_, ?_⟩
        · exact List.mem_append_right _ List.mem_cons_self
        · rw [hk]
          exact ItemPath.startsWith_key_iff.2 rfl

end Schema

/-! ## The pass -/

/-- One step accepts at most the object in which the entry lies. -/
theorem contains_acceptParent_iff {t : Template} {accepted : SortedSet Key} {k key : Key} :
    (acceptParent t accepted k).contains key = true ↔ accepted.contains key = true ∨
      (key = k.parent ∧ t.hasNode k.parent.shape = true ∧
        accepted.contains (k.dropLast 3) = true) := by
  unfold acceptParent
  by_cases h : (t.hasNode k.parent.shape && accepted.contains (k.dropLast 3)) = true
  · rw [if_pos h, SortedMap.contains_insert, or_comm]
    rw [Bool.and_eq_true] at h
    simp only [h, and_true]
  · rw [if_neg h]
    rw [Bool.and_eq_true] at h
    simp only [h, and_false, or_false]

variable {s : Schema} {r : Record} {f : FlatValues}

/-- The pass over the keys of a flat record accepts the objects that the schema accepts. -/
theorem contains_acceptedNodes_iff (hs : s.Distinct) (h : r.flatten = .ok f) (key : Key) :
    (acceptedNodes s.template f.keys).contains key = true ↔
      ∃ path : ItemPath, key = path.key ∧ s.Accepts f.keys path := by
  -- The invariant: after some keys the set has the objects that these keys accept.
  have hrun := @foldl_induction _ _ (acceptParent s.template)
    (fun done accepted => ∀ key, accepted.contains key = true ↔
      ∃ path : ItemPath, key = path.key ∧ s.Accepts done path)
    f.keys (SortedMap.insert ∅ .root ())
  refine hrun ?start ?step key
  case start =>
    -- At the start the set has the record alone, and without a key nothing else is accepted.
    intro key
    rw [SortedMap.contains_insert]
    constructor
    · rintro (rfl | hempty)
      · exact ⟨[], rfl, Schema.accepts_nil⟩
      · cases hempty
    · rintro ⟨path, rfl, hpath⟩
      cases path with
      | nil => exact .inl rfl
      | cons step path =>
        obtain ⟨-, k, hk, -⟩ := hpath 1 (Nat.le_refl _) (by rw [List.length_cons]; omega)
        cases hk
  case step =>
    -- A step with the key `k` of the entries, none of which was longer before it.
    intro done k rest accepted hkeys hdone key
    have hmem : k ∈ f.keys := hkeys ▸ List.mem_append_right _ List.mem_cons_self
    have hlengths : ∀ d ∈ done, d.length ≤ k.length := by
      intro d hd
      have hsorted := f.pairwise_keys
      rw [hkeys, List.pairwise_append] at hsorted
      exact Key.length_le_of_lt (hsorted.2.2 d hd k List.mem_cons_self)
    obtain ⟨q, name, hk⟩ := Record.exists_eq_field_of_mem_keys h hmem
    have hparent : k.parent = q.key := by rw [hk, Key.parent_field]
    have houterKey : k.dropLast 3 = ItemPath.key q.dropLast := by
      rw [hk, ItemPath.dropLast_key_field]
    rw [contains_acceptParent_iff, hparent, ItemPath.shape_key_eq_under, houterKey, hdone, hdone]
    constructor
    · -- What the step leaves in the set, or adds to it, is accepted.
      rintro (⟨path, rfl, hpath⟩ | ⟨rfl, hnode, path, hpath, houter⟩)
      · exact ⟨path, rfl, hpath.mono (List.subset_append_left _ _)⟩
      · cases ItemPath.segments_injective (congrArg Key.segments hpath)
        -- An entry directly in the record accepts the record, which is in the set from the start.
        by_cases hq : q = []
        · rw [hq]
          exact ⟨[], rfl, Schema.accepts_nil⟩
        · have hnode := (Schema.hasNode_under_iff hs (mt List.map_eq_nil_iff.1 hq)).1 hnode
          exact ⟨q, rfl, (Schema.accepts_concat_keys_iff hk hlengths).2
            (.inr ⟨rfl, hq, hnode, houter⟩)⟩
    · -- What is accepted with the new key was so before, or is the object that the step adds.
      rintro ⟨path, rfl, hpath⟩
      rcases (Schema.accepts_concat_keys_iff hk hlengths).1 hpath with hpath | ⟨rfl, hq, hnode, houter⟩
      · exact .inl ⟨path, rfl, hpath⟩
      · have hnode := (Schema.hasNode_under_iff hs (mt List.map_eq_nil_iff.1 hq)).2 hnode
        exact .inr ⟨rfl, hnode, path.dropLast, rfl, houter⟩

/-- The accepted objects of a flat record are the record itself and those which the schema accepts, and
the node of each of them is the one that the names of the lists around it lead to. Below the root this
node has a chain of its own. -/
theorem acceptedNodes_exact (hs : s.Distinct) (h : r.flatten = .ok f) :
    (∀ key, (acceptedNodes s.template f.keys).contains key = true ↔
      ∃ path : ItemPath, key = path.key ∧ s.Accepts f.keys path) ∧
    ∀ path : ItemPath, s.Accepts f.keys path → ∃ node, s.nested? path.names = some node ∧
      s.descend? path.key = some node ∧ (path ≠ [] → node.HasChain) := by
  refine ⟨contains_acceptedNodes_iff hs h, fun path hpath => ?_⟩
  obtain ⟨node, hnode, hchain⟩ := hpath.exists_nested
  exact ⟨node, hnode, (Schema.descend?_key s path).trans hnode, hchain⟩

/-- Lists in lists, with a field in the objects of either level. -/
def layered : Schema where
  fields := [("a", .sub { fields := [("b", .sub { fields := [("d", .leaf [])] }), ("c", .leaf [])] })]

/-- A record for it whose first object has nothing but a list. -/
def hollow : Record where
  entries := [("a", .arr [.obj [("b", .arr [.obj [("d", .int 1)]])],
    .obj [("b", .arr [.obj [("d", .int 2)]]), ("c", .int 3)]])]
  sorted := by decide

/-- The three values that flattening sees in it. -/
def hollowFlat : FlatValues := .ofList [
  (⟨[.field "a", .index 1, .field "c"]⟩, .int 3),
  (⟨[.field "a", .index 0, .field "b", .index 0, .field "d"]⟩, .int 1),
  (⟨[.field "a", .index 1, .field "b", .index 0, .field "d"]⟩, .int 2)]

/-- Of the two objects in the list of `hollow`, the one without a field of its own is not accepted, nor is
what is inside it. -/
theorem acceptedNodes_exact_hollow :
    layered.Distinct ∧ hollow.flatten = .ok hollowFlat ∧
      (acceptedNodes layered.template hollowFlat.keys).keys =
        [.root, ItemPath.key [("a", 1)], ItemPath.key [("a", 1), ("b", 0)]] ∧
      ((∀ key, (acceptedNodes layered.template hollowFlat.keys).contains key = true ↔
        ∃ path : ItemPath, key = path.key ∧ layered.Accepts hollowFlat.keys path) ∧
      ∀ path : ItemPath, layered.Accepts hollowFlat.keys path →
        ∃ node, layered.nested? path.names = some node ∧
          layered.descend? path.key = some node ∧ (path ≠ [] → node.HasChain)) :=
  have hs : layered.Distinct := by decide
  have hflat : hollow.flatten = .ok hollowFlat := rfl
  ⟨hs, hflat, by decide, acceptedNodes_exact hs hflat⟩

end FlatRecord
