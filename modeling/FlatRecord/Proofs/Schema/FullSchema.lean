import FlatRecord.Proofs.Schema.Acceptance

/-!
# The chains of an expanded schema

`get?_full_iff` says which chains the expansion of a schema for a record has: those of the node of
each accepted object, under the key of the object, and the junk chain at the root. A key determines
the object and the field or slot that it belongs to, so no chain takes the place of another.

`Schema.AllChains` states a property of all chains in a schema; the chains of its expansion inherit it
(`of_get?_full`).
-/

namespace FlatRecord

namespace Schema

variable {s node : Schema} {P : Chain → Prop}

/-! ## Properties of all chains -/

mutual

/-- All chains of a schema and of the schemas in it have the property. -/
def AllChains (P : Chain → Prop) : Schema → Prop
  | ⟨fields, before, after, extras, junk⟩ => AllChainsFields P fields ∧
    ∀ slot chain, (⟨fields, before, after, extras, junk⟩ : Schema).control? slot = some chain → P chain
termination_by structural s => s

/-- All chains of a field have the property. -/
def AllChainsNode (P : Chain → Prop) : Node → Prop
  | .leaf chain => P chain
  | .sub schema => AllChains P schema
termination_by structural n => n

/-- All chains of some fields have the property. -/
def AllChainsFields (P : Chain → Prop) : List (String × Node) → Prop
  | [] => True
  | (_, node) :: rest => AllChainsNode P node ∧ AllChainsFields P rest
termination_by structural l => l

end

/-- All chains of some fields have a property if those of each field have it. -/
theorem allChainsFields_iff {fields : List (String × Node)} :
    AllChainsFields P fields ↔ ∀ field ∈ fields, AllChainsNode P field.2 := by
  induction fields with
  | nil => simp [AllChainsFields]
  | cons field rest ih => simp [AllChainsFields, ih]

/-- All chains of a schema have a property if those of its fields and of its slots have it. -/
theorem allChains_iff : s.AllChains P ↔ (∀ field ∈ s.fields, AllChainsNode P field.2) ∧
    ∀ slot chain, s.control? slot = some chain → P chain := by
  rw [← allChainsFields_iff]
  cases s
  exact Iff.rfl

/-- The schema under a field inherits a property of all chains. -/
theorem AllChains.child {name : String} (h : s.AllChains P) (hchild : s.child? name = some node) :
    node.AllChains P := by
  unfold child? at hchild
  obtain ⟨n, hget, hn⟩ := Option.bind_eq_some_iff.1 hchild
  have hmem := (allChains_iff.1 h).1 _ (Listed.mem_of_get? hget)
  cases n with
  | leaf chain => cases hn
  | sub inner =>
    cases hn
    exact hmem

/-- The schema to which a key leads inherits a property of all chains. -/
theorem AllChains.descend {key : Key} (h : s.AllChains P) (hnode : s.descend? key = some node) :
    node.AllChains P := by
  unfold descend? at hnode
  generalize key.segments = segments at hnode
  induction segments generalizing s with
  | nil =>
    cases hnode
    exact h
  | cons segment rest ih =>
    cases segment with
    | field name =>
      obtain ⟨inner, hchild, hnode⟩ := Option.bind_eq_some_iff.1 hnode
      exact ih (h.child hchild) hnode
    | index position => exact ih h hnode
    -- A step by name goes to a sub-schema, one by position stays, and one to a slot leads nowhere.
    | control slot => cases hnode

/-- The junk entry of a schema is that of its junk chain, if it has one. -/
theorem mem_junkEntries_iff {k : Key} {chain : Chain} :
    (k, chain) ∈ s.junkEntries ↔ k = Key.root.slot .junk ∧ s.junk = some chain := by
  unfold junkEntries
  rw [Option.mem_toList, Option.map_eq_some_iff]
  constructor
  · rintro ⟨chain', hchain, he⟩
    cases he
    exact ⟨rfl, hchain⟩
  · rintro ⟨rfl, hchain⟩
    exact ⟨chain, hchain, rfl⟩

/-- The chains of a node have a property of all chains. -/
theorem AllChains.of_mem_ownEntries (h : s.AllChains P) {key k : Key} {chain : Chain}
    (hmem : (k, chain) ∈ s.ownEntries key) : P chain := by
  rw [allChains_iff] at h
  rcases mem_ownEntries_iff.1 hmem with ⟨name, hfield, -⟩ | ⟨slot, -, hchain, -⟩
  · exact h.1 _ hfield
  · exact h.2 slot chain hchain

/-- Under its key a node has one chain at most. -/
theorem Distinct.eq_of_mem_ownEntries (hs : s.Distinct) {key k : Key} {chain chain' : Chain}
    (h : (k, chain) ∈ s.ownEntries key) (h' : (k, chain') ∈ s.ownEntries key) : chain = chain' := by
  rcases mem_ownEntries_iff.1 h with ⟨name, hfield, rfl⟩ | ⟨slot, -, hchain, rfl⟩
  · -- Two leaf fields with the same key have the same name, and names are distinct.
    rcases mem_ownEntries_iff.1 h' with ⟨name', hfield', hkey⟩ | ⟨slot, -, -, hkey⟩
    · have hname : name = name' := (Key.field_inj.1 hkey).2
      rw [← hname, ← hs.get?_eq_some_iff] at hfield'
      rw [← hs.get?_eq_some_iff, hfield'] at hfield
      exact (Node.leaf.inj (Option.some.inj hfield)).symm
    · exact absurd hkey Key.field_ne_slot
  · -- Two slots with the same key are the same one.
    rcases mem_ownEntries_iff.1 h' with ⟨name', -, hkey⟩ | ⟨slot', -, hchain', hkey⟩
    · exact absurd hkey.symm Key.field_ne_slot
    · have hslot : slot = slot' := (Key.slot_inj.1 hkey).2
      rw [← hslot, hchain] at hchain'
      exact Option.some.inj hchain'

end Schema

/-! ## Look-ups in an expansion -/

namespace Expansion

variable {s : Schema} {r : Record} {f : FlatValues} {k : Key} {chain chain' : Chain}

/-- The schema has the chain for the key in the node of an accepted object. -/
def HasOwn (s : Schema) (f : FlatValues) (k : Key) (chain : Chain) : Prop :=
  ∃ (path : ItemPath) (node : Schema), s.Accepts f.keys path ∧ s.nested? path.names = some node ∧
    (k, chain) ∈ node.ownEntries path.key

/-- The key of a chain determines the object, so a key has one chain at most. -/
theorem HasOwn.unique (hs : s.Distinct) (h : HasOwn s f k chain) (h' : HasOwn s f k chain') :
    chain = chain' := by
  obtain ⟨path, node, -, hnode, hmem⟩ := h
  obtain ⟨path', node', -, hnode', hmem'⟩ := h'
  have hkey : path.key = path'.key := by
    rw [← Schema.parent_of_mem_ownEntries hmem, ← Schema.parent_of_mem_ownEntries hmem']
  cases ItemPath.segments_injective (congrArg Key.segments hkey)
  rw [hnode] at hnode'
  cases hnode'
  exact (hs.nested hnode).eq_of_mem_ownEntries hmem hmem'

/-- The junk slot at the root is no slot of a node. -/
theorem not_hasOwn_junk : ¬ HasOwn s f (Key.root.slot .junk) chain := by
  rintro ⟨path, node, -, -, hmem⟩
  exact Schema.slot_junk_not_mem_ownEntries hmem

/-- The chains listed for a record are those of its accepted objects, and the one for junk. -/
theorem mem_chains_iff (hs : s.Distinct) (h : r.flatten = .ok f) :
    (k, chain) ∈ (acceptedNodes s.template f.keys).keys.flatMap s.chainsAt ++ s.junkEntries ↔
      HasOwn s f k chain ∨ (k = Key.root.slot .junk ∧ s.junk = some chain) := by
  rw [List.mem_append, Schema.mem_junkEntries_iff, List.mem_flatMap]
  refine or_congr_left ?_
  simp only [SortedMap.mem_keys, contains_acceptedNodes_iff hs h]
  constructor
  · rintro ⟨_, ⟨path, rfl, hpath⟩, hmem⟩
    obtain ⟨node, hnode, -⟩ := hpath.exists_nested
    unfold Schema.chainsAt at hmem
    rw [Schema.descend?_key, hnode] at hmem
    exact ⟨path, node, hpath, hnode, hmem⟩
  · rintro ⟨path, node, hpath, hnode, hmem⟩
    refine ⟨path.key, ⟨path, rfl, hpath⟩, ?_⟩
    unfold Schema.chainsAt
    rw [Schema.descend?_key, hnode]
    exact hmem

/-- The expansion of a schema for a record has the chains of the nodes of the accepted objects, and the
junk chain. -/
theorem get?_full_iff (hs : s.Distinct) (h : r.flatten = .ok f) :
    (Expansion.of s f).full.get? k = some chain ↔
      HasOwn s f k chain ∨ (k = Key.root.slot .junk ∧ s.junk = some chain) := by
  constructor
  · intro hget
    exact (mem_chains_iff hs h).1 (SortedMap.mem_of_get?_ofList hget)
  · intro hchain
    -- The chains are stored one after the other, so a chain is found if no other one has its key.
    refine SortedMap.get?_ofList_of_forall_eq ((mem_chains_iff hs h).2 hchain) fun chain' hmem => ?_
    -- The other chain is one of a node: a node has one chain under a key, and none in the junk slot.
    rcases (mem_chains_iff hs h).1 hmem with hown' | ⟨rfl, hjunk'⟩
    · rcases hchain with hown | ⟨rfl, -⟩
      · exact hown'.unique hs hown
      · exact absurd hown' not_hasOwn_junk
    · -- The other chain is the one for junk.
      rcases hchain with hown | ⟨-, hjunk⟩
      · exact absurd hown not_hasOwn_junk
      · rw [hjunk] at hjunk'
        exact (Option.some.inj hjunk').symm

/-- The expansion has a chain for a field when the field is a leaf of an accepted object. -/
theorem get?_full_field_iff (hs : s.Distinct) (h : r.flatten = .ok f) {path : ItemPath}
    {name : String} : (Expansion.of s f).full.get? (path.key.field name) = some chain ↔
      s.Accepts f.keys path ∧
        ∃ node, s.nested? path.names = some node ∧ node.get? name = some (.leaf chain) := by
  rw [get?_full_iff hs h]
  constructor
  · -- A field is no slot, so the chain is that of a leaf.
    rintro (⟨q, node, haccepts, hnode, hmem⟩ | ⟨hjunk, -⟩)
    · rcases Schema.mem_ownEntries_iff.1 hmem with ⟨n, hleaf, hkey⟩ | ⟨slot, -, -, hkey⟩
      · obtain ⟨rfl, rfl⟩ := ItemPath.key_field_inj.1 hkey
        exact ⟨haccepts, node, hnode, (hs.nested hnode).get?_eq_some_iff.2 hleaf⟩
      · exact absurd hkey Key.field_ne_slot
    · exact absurd hjunk Key.field_ne_slot
  · rintro ⟨haccepts, node, hnode, hget⟩
    have hleaf : (name, Node.leaf chain) ∈ node.fields := (hs.nested hnode).get?_eq_some_iff.1 hget
    exact .inl ⟨path, node, haccepts, hnode, Schema.field_mem_ownEntries hleaf _⟩

/-- Every chain of an expansion is one of a node to which a key leads, or the junk chain. -/
theorem exists_of_get?_full (hget : (Expansion.of s f).full.get? k = some chain) :
    (∃ (p : Key) (node : Schema), s.descend? p = some node ∧ (k, chain) ∈ node.ownEntries p) ∨
      (k = Key.root.slot .junk ∧ s.junk = some chain) := by
  have hmem := SortedMap.mem_of_get?_ofList hget
  rcases List.mem_append.1 hmem with hmem | hmem
  · obtain ⟨p, -, hmem⟩ := List.mem_flatMap.1 hmem
    unfold Schema.chainsAt at hmem
    cases hnode : s.descend? p with
    | none =>
      rw [hnode] at hmem
      cases hmem
    | some node =>
      rw [hnode] at hmem
      exact .inl ⟨p, node, hnode, hmem⟩
  · exact .inr (Schema.mem_junkEntries_iff.1 hmem)

/-- The chains of an expansion have a property of all chains of the schema. -/
theorem of_get?_full {P : Chain → Prop} (hP : s.AllChains P)
    (hget : (Expansion.of s f).full.get? k = some chain) : P chain := by
  rcases exists_of_get?_full hget with ⟨p, node, hnode, hmem⟩ | ⟨-, hjunk⟩
  · exact (hP.descend hnode).of_mem_ownEntries hmem
  · exact (Schema.allChains_iff.1 hP).2 .junk chain hjunk

end Expansion

end FlatRecord
