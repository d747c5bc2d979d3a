import FlatRecord.Proofs.Key
import FlatRecord.Proofs.Listing
import FlatRecord.Schema.Expansion

/-!
# The nodes of a schema

Field names lead from a schema to the schemas declared inside it (`Schema.nested?`), and a node *has
a chain* when it has a leaf field or a chain in one of the slots that any node may declare. The
template of a schema lists the chains of all its nodes and nothing else (`mem_template_iff`), so a
key without list positions is the parent of a template key exactly when it leads to a node that has
a chain (`hasNode_under_iff`).

The fields of a schema have different names (`Schema.Distinct`): a field that is declared again is
replaced. Declarations keep this (`Distinct.declare`).
-/

namespace FlatRecord

namespace Key

/-- The key at the end of a path of fields. -/
def under (k : Key) (names : List String) : Key := names.foldl field k

/-- A path of names and one more name is one path. -/
theorem under_concat (k : Key) (names : List String) (name : String) :
    k.under (names ++ [name]) = (k.under names).field name := by
  unfold under
  rw [List.foldl_append]
  rfl

/-- A path of fields appends its names to a key. -/
theorem segments_under (k : Key) (names : List String) :
    (k.under names).segments = k.segments ++ names.map .field := by
  induction names generalizing k with
  | nil => exact (List.append_nil _).symm
  | cons name rest ih =>
    show ((k.field name).under rest).segments = _
    rw [ih, field, push, List.append_assoc]
    rfl

/-- A path of fields is determined by the key at its end. -/
theorem under_injective {k : Key} {names names' : List String} (h : k.under names = k.under names') :
    names = names' := by
  have hsegments := congrArg segments h
  rw [segments_under, segments_under, List.append_cancel_left_eq] at hsegments
  exact (List.map_inj_right fun _ _ => Segment.field.inj).1 hsegments

end Key

namespace Schema

/-! ## Induction -/

mutual

/-- What is inherited from the schemas of the fields holds of every schema. -/
theorem induction {P : Schema → Prop}
    (step : ∀ s : Schema, (∀ name inner, (name, Node.sub inner) ∈ s.fields → P inner) → P s) :
    ∀ s, P s
  | ⟨fields, _, _, _, _⟩ => step _ (inductionFields step fields)

/-- The same of the schemas of some fields. -/
theorem inductionFields {P : Schema → Prop}
    (step : ∀ s : Schema, (∀ name inner, (name, Node.sub inner) ∈ s.fields → P inner) → P s) :
    ∀ (fields : List (String × Node)) (name inner), (name, Node.sub inner) ∈ fields → P inner
  | [], _, _, h => nomatch h
  | (_, .leaf _) :: rest, name, inner, h =>
    inductionFields step rest name inner ((List.mem_cons.1 h).resolve_left nofun)
  | (_, .sub s) :: rest, name, inner, h =>
    (List.mem_cons.1 h).elim
      (fun he => Node.sub.inj (Prod.mk.inj he).2 ▸ induction step s)
      (inductionFields step rest name inner)

end

/-! ## Different names -/

mutual

/-- Decides whether the fields of a schema and of all schemas in it have different names. -/
def decideDistinct : (s : Schema) → Decidable s.Distinct
  | ⟨fields, _, _, _, _⟩ => match inferInstanceAs (Decidable (fields.map (·.1)).Nodup),
      decideDistinctFields fields with
    | isTrue hnames, isTrue hfields => isTrue ⟨hnames, hfields⟩
    | isFalse hnames, _ => isFalse fun h => hnames h.1
    | _, isFalse hfields => isFalse fun h => hfields h.2
termination_by structural s => s

/-- Decides it for the schema of a field. -/
def decideDistinctNode : (n : Node) → Decidable (DistinctNode n)
  | .leaf _ => isTrue trivial
  | .sub schema => decideDistinct schema
termination_by structural n => n

/-- Decides it for the schemas of some fields. -/
def decideDistinctFields : (fields : List (String × Node)) → Decidable (DistinctFields fields)
  | [] => isTrue trivial
  | (_, node) :: rest => match decideDistinctNode node, decideDistinctFields rest with
    | isTrue hnode, isTrue hrest => isTrue ⟨hnode, hrest⟩
    | isFalse hnode, _ => isFalse fun h => hnode h.1
    | _, isFalse hrest => isFalse fun h => hrest h.2
termination_by structural l => l

end

/-- Whether the fields of a schema have different names can be computed. -/
instance (s : Schema) : Decidable s.Distinct := decideDistinct s

/-- The schemas of some fields are distinct if each of them is. -/
theorem distinctFields_iff {fields : List (String × Node)} :
    DistinctFields fields ↔ ∀ name inner, (name, Node.sub inner) ∈ fields → inner.Distinct := by
  induction fields with
  | nil => simp [DistinctFields]
  | cons field rest ih =>
    obtain ⟨first, node⟩ := field
    cases node with
    | leaf chain => simp [DistinctFields, DistinctNode, ih]
    | sub inner =>
      simp only [DistinctFields, DistinctNode, ih, List.mem_cons, Prod.mk.injEq, Node.sub.injEq]
      constructor
      · rintro ⟨hinner, hrest⟩ name inner' (⟨-, rfl⟩ | h)
        · exact hinner
        · exact hrest name inner' h
      · exact fun h => ⟨h first inner (.inl ⟨rfl, rfl⟩), fun name inner' h' => h name inner' (.inr h')⟩

/-- The fields of a schema have different names when its own ones do, and those of the schemas under
them. -/
theorem distinct_iff {s : Schema} : s.Distinct ↔ s.fieldNames.Nodup ∧
    ∀ name inner, (name, Node.sub inner) ∈ s.fields → inner.Distinct := by
  rw [← distinctFields_iff]
  cases s
  exact Iff.rfl

variable {s node : Schema} {name : String} {names : List String}

/-- A field is found under its name. -/
theorem Distinct.get?_eq_some_iff (hs : s.Distinct) {n : Node} :
    s.get? name = some n ↔ (name, n) ∈ s.fields :=
  Listed.get?_eq_some_iff (distinct_iff.1 hs).1

/-- A declaration keeps the names different. -/
theorem Distinct.declare (hs : s.Distinct) {n : Node} (hn : ∀ inner, n = .sub inner → inner.Distinct) :
    (s.declare name n).Distinct := by
  obtain ⟨hnames, hfields⟩ := distinct_iff.1 hs
  refine distinct_iff.2 ⟨Listed.nodup_keys_put hnames, fun name' inner h => ?_⟩
  rcases Listed.mem_put h with he | h
  · cases he
    exact hn inner rfl
  · exact hfields name' inner h

/-! ## Nodes -/

/-- The sub-schema of a name is the one that is declared under it. -/
theorem child?_eq_some_iff (hs : s.Distinct) :
    s.child? name = some node ↔ (name, Node.sub node) ∈ s.fields := by
  rw [← hs.get?_eq_some_iff, child?]
  cases s.get? name with
  | none => simp
  | some n => cases n <;> simp [Node.sub?]

/-- The sub-schema under a field is declared there. -/
theorem mem_fields_of_child? (h : s.child? name = some node) : (name, Node.sub node) ∈ s.fields := by
  obtain ⟨n, hget, hsub⟩ := Option.bind_eq_some_iff.1 h
  cases n with
  | leaf chain => cases hsub
  | sub inner =>
    cases hsub
    exact Listed.mem_of_get? hget

/-- The schema that declared sub-schemas of the given names lead to. -/
def nested? (s : Schema) : List String → Option Schema
  | [] => some s
  | name :: rest => (s.child? name).bind fun inner => inner.nested? rest

/-- The schema at the end of a path is found from sub-schema to sub-schema. -/
theorem nested?_cons_eq_some_iff : s.nested? (name :: names) = some node ↔
    ∃ inner, s.child? name = some inner ∧ inner.nested? names = some node :=
  Option.bind_eq_some_iff

/-- The names of two paths one after the other lead where the second leads from the end of the
first. -/
theorem nested?_append (s : Schema) (names names' : List String) :
    s.nested? (names ++ names') = (s.nested? names).bind fun inner => inner.nested? names' := by
  induction names generalizing s with
  | nil => rfl
  | cons name names ih =>
    show ((s.child? name).bind fun inner => inner.nested? (names ++ names')) =
      ((s.child? name).bind fun inner => inner.nested? names).bind fun inner => inner.nested? names'
    rw [Option.bind_assoc]
    exact Option.bind_congr fun inner _ => ih inner

/-- The schema and all schemas declared inside it have the property. -/
def EveryNode (P : Schema → Prop) (s : Schema) : Prop :=
  ∀ names node, s.nested? names = some node → P node

/-- A key leads to no schemas but those to which field names lead. -/
theorem exists_nested?_of_descend? {key : Key} (h : s.descend? key = some node) :
    ∃ names, s.nested? names = some node := by
  unfold descend? at h
  generalize key.segments = segments at h
  induction segments generalizing s with
  | nil => exact ⟨[], h⟩
  | cons segment rest ih =>
    -- A name leads on to a sub-schema; a position stays in the same schema; a slot leads nowhere.
    cases segment with
    | field name =>
      obtain ⟨inner, hchild, hinner⟩ := Option.bind_eq_some_iff.1 h
      obtain ⟨names, hnames⟩ := ih hinner
      exact ⟨name :: names, nested?_cons_eq_some_iff.2 ⟨inner, hchild, hnames⟩⟩
    | index position => exact ih h
    | control slot => cases h

/-- The schema to which a key leads has a property of every node. -/
theorem EveryNode.descend {P : Schema → Prop} (h : s.EveryNode P) {key : Key}
    (hnode : s.descend? key = some node) : P node := by
  obtain ⟨names, hnames⟩ := exists_nested?_of_descend? hnode
  exact h names node hnames

/-- Every node has a property when the schema has it, and every node of the schemas under its fields. -/
theorem EveryNode.of_fields {P : Schema → Prop} (hs : P s)
    (hfields : ∀ name inner, (name, Node.sub inner) ∈ s.fields → inner.EveryNode P) :
    s.EveryNode P := by
  intro names node hnode
  cases names with
  | nil =>
    cases hnode
    exact hs
  | cons name names =>
    obtain ⟨inner, hchild, hnode⟩ := nested?_cons_eq_some_iff.1 hnode
    exact hfields name inner (mem_fields_of_child? hchild) names node hnode

/-- The node has a leaf field, or a chain in a slot that any node may declare. -/
def HasChain (s : Schema) : Prop :=
  (∃ name chain, s.get? name = some (.leaf chain)) ∨ s.before.isSome ∨ s.after.isSome ∨
    s.extras.isSome

/-- The chains of a node at a key, those of the nodes inside it left out. -/
def ownEntries (s : Schema) (key : Key) : List (Key × Chain) :=
  s.leafEntries key ++ s.slotEntries key

/-- The leaf chains of a node are those of its leaf fields, each under its key. -/
theorem mem_leafEntries_iff {key k : Key} {chain : Chain} : (k, chain) ∈ s.leafEntries key ↔
    ∃ name, (name, Node.leaf chain) ∈ s.fields ∧ k = key.field name := by
  simp only [leafEntries, List.mem_filterMap, Option.map_eq_some_iff]
  constructor
  · rintro ⟨⟨name, n⟩, hmem, chain', hchain, he⟩
    -- Only leaf fields are listed.
    cases he
    cases n with
    | leaf c =>
      cases hchain
      exact ⟨name, hmem, rfl⟩
    | sub inner => cases hchain
  · rintro ⟨name, hmem, rfl⟩
    exact ⟨_, hmem, chain, rfl, rfl⟩

/-- The slot chains of a node are those that it declares, each under its key. -/
theorem mem_slotEntries_iff {key k : Key} {chain : Chain} : (k, chain) ∈ s.slotEntries key ↔
    ∃ slot ∈ nodeSlots, s.control? slot = some chain ∧ k = key.slot slot := by
  simp only [slotEntries, List.mem_filterMap, Option.map_eq_some_iff, Prod.mk.injEq]
  constructor
  · rintro ⟨slot, hslot, chain', hchain, rfl, rfl⟩
    exact ⟨slot, hslot, hchain, rfl⟩
  · rintro ⟨slot, hslot, hchain, rfl⟩
    exact ⟨slot, hslot, chain, hchain, rfl, rfl⟩

/-- The chains of a node are those of its leaf fields and of its slots. -/
theorem mem_ownEntries_iff {key k : Key} {chain : Chain} : (k, chain) ∈ s.ownEntries key ↔
    (∃ name, (name, Node.leaf chain) ∈ s.fields ∧ k = key.field name) ∨
      ∃ slot ∈ nodeSlots, s.control? slot = some chain ∧ k = key.slot slot := by
  unfold ownEntries
  rw [List.mem_append, mem_leafEntries_iff, mem_slotEntries_iff]

/-- The chain of a leaf field is one of its node. -/
theorem field_mem_ownEntries {name : String} {chain : Chain} (h : (name, Node.leaf chain) ∈ s.fields)
    (key : Key) : (key.field name, chain) ∈ s.ownEntries key :=
  mem_ownEntries_iff.2 (.inl ⟨name, h, rfl⟩)

/-- The keys of the chains of a node lie directly under it. -/
theorem parent_of_mem_ownEntries {key k : Key} {chain : Chain} (h : (k, chain) ∈ s.ownEntries key) :
    k.parent = key := by
  rcases mem_ownEntries_iff.1 h with ⟨name, -, rfl⟩ | ⟨slot, -, -, rfl⟩
  · exact Key.parent_field
  · exact Key.parent_slot

/-- The chains of a node are the same under every key, each of them one segment further on. -/
theorem exists_push_of_mem_ownEntries {key k : Key} {chain : Chain} (h : (k, chain) ∈ s.ownEntries key) :
    ∃ last, k = key.push last ∧ ∀ key', (key'.push last, chain) ∈ s.ownEntries key' := by
  rcases mem_ownEntries_iff.1 h with ⟨name, hfield, rfl⟩ | ⟨slot, hslot, hchain, rfl⟩
  · exact ⟨.field name, rfl, field_mem_ownEntries hfield⟩
  · exact ⟨.control slot, rfl, fun _ => mem_ownEntries_iff.2 (.inr ⟨slot, hslot, hchain, rfl⟩)⟩

/-- The junk slot is no slot of a node. -/
theorem slot_junk_not_mem_ownEntries {key k : Key} {chain : Chain} :
    (k.slot .junk, chain) ∉ s.ownEntries key := by
  intro h
  rcases mem_ownEntries_iff.1 h with ⟨name, -, hkey⟩ | ⟨slot, hslot, -, hkey⟩
  · exact absurd hkey.symm Key.field_ne_slot
  · rw [← (Key.slot_inj.1 hkey).2] at hslot
    exact absurd hslot (by decide)

/-- A node has entries of its own if it has a chain. -/
theorem exists_mem_ownEntries_iff (hs : s.Distinct) {key : Key} :
    (∃ e, e ∈ s.ownEntries key) ↔ s.HasChain := by
  have hslots : s.before.isSome ∨ s.after.isSome ∨ s.extras.isSome ↔
      ∃ slot ∈ nodeSlots, ∃ chain, s.control? slot = some chain := by
    simp [nodeSlots, control?, Option.isSome_iff_exists]
  unfold HasChain
  rw [hslots]
  constructor
  · -- An entry of its own is a leaf field or a slot that is set, and each of them is a chain.
    rintro ⟨⟨k, chain⟩, he⟩
    rcases mem_ownEntries_iff.1 he with ⟨name, hmem, -⟩ | ⟨slot, hslot, hchain, -⟩
    · exact .inl ⟨name, chain, hs.get?_eq_some_iff.2 hmem⟩
    · exact .inr ⟨slot, hslot, chain, hchain⟩
  · rintro (⟨name, chain, hget⟩ | ⟨slot, hslot, chain, hchain⟩)
    · exact ⟨_, field_mem_ownEntries (hs.get?_eq_some_iff.1 hget) _⟩
    · exact ⟨_, mem_ownEntries_iff.2 (.inr ⟨slot, hslot, hchain, rfl⟩)⟩

/-! ## Templates -/

/-- The entries under some fields are those of leaves and those inside sub-schemas. -/
theorem mem_fieldEntriesUnder_iff {key : Key} {fields : List (String × Node)} {e : Key × Chain} :
    e ∈ fieldEntriesUnder key fields ↔
      (∃ name chain, (name, Node.leaf chain) ∈ fields ∧ e = (key.field name, chain)) ∨
        ∃ name inner, (name, Node.sub inner) ∈ fields ∧ e ∈ inner.entriesUnder (key.field name) := by
  induction fields with
  | nil => simp [fieldEntriesUnder]
  | cons field rest ih =>
    obtain ⟨first, n⟩ := field
    rw [fieldEntriesUnder, List.mem_append, ih]
    -- A leaf adds one entry, a schema all that are in it.
    cases n with
    | leaf chain =>
      simp only [nodeEntriesUnder, List.mem_cons, List.not_mem_nil, or_false, Prod.mk.injEq,
        Node.leaf.injEq, reduceCtorEq, and_false, false_or]
      constructor
      · rintro (rfl | ⟨name, c, h, rfl⟩ | h)
        · exact .inl ⟨first, chain, .inl ⟨rfl, rfl⟩, rfl⟩
        · exact .inl ⟨name, c, .inr h, rfl⟩
        · exact .inr h
      · rintro (⟨name, c, ⟨rfl, rfl⟩ | h, rfl⟩ | h)
        · exact .inl rfl
        · exact .inr (.inl ⟨name, c, h, rfl⟩)
        · exact .inr (.inr h)
    | sub inner =>
      simp only [nodeEntriesUnder, List.mem_cons, Prod.mk.injEq, Node.sub.injEq, reduceCtorEq,
        and_false, false_or]
      constructor
      · rintro (h | h | ⟨name, inner', h, he⟩)
        · exact .inr ⟨first, inner, .inl ⟨rfl, rfl⟩, h⟩
        · exact .inl h
        · exact .inr ⟨name, inner', .inr h, he⟩
      · rintro (h | ⟨name, inner', ⟨rfl, rfl⟩ | h, he⟩)
        · exact .inr (.inl h)
        · exact .inl he
        · exact .inr (.inr ⟨name, inner', h, he⟩)

/-- The chains in a schema are its own and those of the schemas under its fields. -/
theorem mem_entriesUnder_iff {key : Key} {e : Key × Chain} : e ∈ s.entriesUnder key ↔
    e ∈ s.ownEntries key ∨
      ∃ name inner, (name, Node.sub inner) ∈ s.fields ∧ e ∈ inner.entriesUnder (key.field name) := by
  obtain ⟨k, chain⟩ := e
  -- Leaf fields and schemas under fields are listed in turn, and the slots after them; here they are
  -- sorted into the chains of the node and those further in.
  have hunfold : s.entriesUnder key = fieldEntriesUnder key s.fields ++ s.slotEntries key := by
    cases s
    rfl
  have hleaf : (∃ name c, (name, Node.leaf c) ∈ s.fields ∧ (k, chain) = (key.field name, c)) ↔
      (k, chain) ∈ s.leafEntries key := by
    rw [mem_leafEntries_iff]
    constructor
    · rintro ⟨name, c, hmem, he⟩
      cases he
      exact ⟨name, hmem, rfl⟩
    · rintro ⟨name, hmem, rfl⟩
      exact ⟨name, chain, hmem, rfl⟩
  rw [hunfold, List.mem_append, mem_fieldEntriesUnder_iff, or_right_comm, hleaf, ownEntries,
    List.mem_append]

/-- The chains in a schema are those of its nodes, each under the names that lead to the node. -/
theorem mem_entriesUnder_iff_nested (hs : s.Distinct) {key : Key} {e : Key × Chain} :
    e ∈ s.entriesUnder key ↔
      ∃ names node, s.nested? names = some node ∧ e ∈ node.ownEntries (key.under names) := by
  induction s using Schema.induction generalizing key with
  | step s ih =>
    rw [mem_entriesUnder_iff]
    constructor
    · -- The chain is that of the schema itself, or further in under a field that leads there.
      rintro (h | ⟨name, inner, hfield, h⟩)
      · exact ⟨[], s, rfl, h⟩
      · have hinner : inner.Distinct := (distinct_iff.1 hs).2 name inner hfield
        obtain ⟨names, node, hnode, he⟩ := (ih name inner hfield hinner).1 h
        have hchild := (child?_eq_some_iff hs).2 hfield
        exact ⟨name :: names, node, nested?_cons_eq_some_iff.2 ⟨inner, hchild, hnode⟩, he⟩
    · rintro ⟨names, node, hnode, he⟩
      -- Without names the node is the schema itself, and the first name leads to one of its fields.
      cases names with
      | nil =>
        cases hnode
        exact .inl he
      | cons name names =>
        obtain ⟨inner, hchild, hnode⟩ := nested?_cons_eq_some_iff.1 hnode
        have hfield := (child?_eq_some_iff hs).1 hchild
        have hinner : inner.Distinct := (distinct_iff.1 hs).2 name inner hfield
        exact .inr ⟨name, inner, hfield, (ih name inner hfield hinner).2 ⟨names, node, hnode, he⟩⟩

/-- The template of a schema lists the chains of its nodes, and that of its junk slot. -/
theorem mem_template_iff (hs : s.Distinct) {e : Key × Chain} :
    e ∈ s.template ↔ (∃ names node, s.nested? names = some node ∧
      e ∈ node.ownEntries (Key.root.under names)) ∨ e ∈ s.junkEntries := by
  unfold template
  rw [List.mem_append, mem_entriesUnder_iff_nested hs]

/-- A schema inside one with distinct names has distinct names. -/
theorem Distinct.nested (hs : s.Distinct) (hnode : s.nested? names = some node) : node.Distinct := by
  induction names generalizing s with
  | nil =>
    cases hnode
    exact hs
  | cons name names ih =>
    obtain ⟨inner, hchild, hnode⟩ := nested?_cons_eq_some_iff.1 hnode
    have hfield := (child?_eq_some_iff hs).1 hchild
    exact ih ((distinct_iff.1 hs).2 name inner hfield) hnode

/-- Keys of the template have a key below the root as their parent exactly when it leads to a node
that has a chain. -/
theorem hasNode_under_iff (hs : s.Distinct) (hne : names ≠ []) :
    s.template.hasNode (Key.root.under names) = true ↔
      ∃ node, s.nested? names = some node ∧ node.HasChain := by
  simp only [Template.hasNode, List.any_eq_true, decide_eq_true_eq]
  constructor
  · rintro ⟨e, he, hparent⟩
    rcases (mem_template_iff hs).1 he with ⟨names', node, hnode, hown⟩ | hjunk
    · rw [parent_of_mem_ownEntries hown] at hparent
      cases Key.under_injective hparent
      exact ⟨node, hnode, (exists_mem_ownEntries_iff (hs.nested hnode)).1 ⟨e, hown⟩⟩
    · -- The junk slot is at the root, which no names lead to.
      unfold junkEntries at hjunk
      rw [Option.mem_toList, Option.map_eq_some_iff] at hjunk
      obtain ⟨chain, -, rfl⟩ := hjunk
      rw [Key.parent_slot] at hparent
      exact absurd (@Key.under_injective .root [] names hparent).symm hne
  · rintro ⟨node, hnode, hchain⟩
    obtain ⟨e, he⟩ := (exists_mem_ownEntries_iff (hs.nested hnode)).2 hchain
    exact ⟨e, (mem_template_iff hs).2 (.inl ⟨names, node, hnode, he⟩), parent_of_mem_ownEntries he⟩

/-- Names on the way to a node that has a chain lead on to a key of the template. -/
theorem leadsOn_under (hs : s.Distinct) (hnode : s.nested? names = some node)
    (hchain : node.HasChain) {before : List String} (hbefore : before <+: names) :
    s.template.leadsOn (Key.root.under before) = true := by
  obtain ⟨⟨k, chain⟩, he⟩ := (@exists_mem_ownEntries_iff node (hs.nested hnode)
    (Key.root.under names)).2 hchain
  refine List.any_eq_true.2 ⟨_, (mem_template_iff hs).2 (.inl ⟨names, node, hnode, he⟩), ?_⟩
  -- The key of a chain goes on from that of its node, which goes on from the names before.
  have hnames : (Key.root.under before).segments <+: (Key.root.under names).segments := by
    rw [Key.segments_under, Key.segments_under]
    exact hbefore.map Segment.field
  refine List.isPrefixOf_iff_prefix.2 (hnames.trans ?_)
  rcases mem_ownEntries_iff.1 he with ⟨name, -, rfl⟩ | ⟨slot, -, -, rfl⟩
  · exact List.prefix_append _ _
  · exact List.prefix_append _ _

end Schema

end FlatRecord
