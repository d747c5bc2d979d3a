import FlatRecord.Proofs.Schema.FullSchema

/-!
# Templates and expansions

A template lists the chains of a schema under keys without list positions, by one walk through all nodes.
An expansion has them under the keys of one record: for each accepted object the way down to its node is
gone anew. The two agree. The template has one chain at most under a key (`Distinct.get?_template_iff`), and
the expansion has a chain under a key just when the key lies directly in an accepted object and the template
has the chain under its shape (`Expansion.get?_full_iff_template`).
-/

namespace FlatRecord

namespace Schema

variable {s : Schema} {k : Key} {chain chain' : Chain}

/-- Under its key a template has one chain at most. -/
theorem Distinct.eq_of_mem_template (hs : s.Distinct) (h : (k, chain) ∈ s.template)
    (h' : (k, chain') ∈ s.template) : chain = chain' := by
  rw [mem_template_iff hs, mem_junkEntries_iff] at h h'
  rcases h with ⟨names, node, hnode, hown⟩ | ⟨rfl, hjunk⟩
  · rcases h' with ⟨names', node', hnode', hown'⟩ | ⟨rfl, -⟩
    · -- The parent of the key leads to the node.
      have hkey : Key.root.under names = Key.root.under names' := by
        rw [← parent_of_mem_ownEntries hown, ← parent_of_mem_ownEntries hown']
      cases Key.under_injective hkey
      cases hnode.symm.trans hnode'
      exact (hs.nested hnode).eq_of_mem_ownEntries hown hown'
    · -- The junk slot is in no node.
      exact absurd hown slot_junk_not_mem_ownEntries
  · rcases h' with ⟨names', node', -, hown'⟩ | ⟨-, hjunk'⟩
    · exact absurd hown' slot_junk_not_mem_ownEntries
    · exact Option.some.inj (hjunk.symm.trans hjunk')

/-- Each pair of a template is found under its key. -/
theorem Distinct.get?_template_iff (hs : s.Distinct) :
    Listed.get? k s.template = some chain ↔ (k, chain) ∈ s.template := by
  refine ⟨Listed.mem_of_get?, fun hmem => ?_⟩
  obtain ⟨chain', hget⟩ := Listed.exists_get?_of_mem hmem
  rw [hget, hs.eq_of_mem_template hmem (Listed.mem_of_get? hget)]

/-- The keys of a template lie directly under keys of field names. -/
theorem exists_push_of_mem_template (hs : s.Distinct) (h : (k, chain) ∈ s.template) :
    ∃ names last, k = (Key.root.under names).push last := by
  rcases (mem_template_iff hs).1 h with ⟨names, node, -, hown⟩ | hjunk
  · obtain ⟨last, hkey, -⟩ := exists_push_of_mem_ownEntries hown
    exact ⟨names, last, hkey⟩
  · exact ⟨[], .control .junk, (mem_junkEntries_iff.1 hjunk).1⟩

/-- Directly under the shape of an object the template has the chains of its node, and at the root that of
the junk slot. -/
theorem mem_template_push_iff (hs : s.Distinct) {path : ItemPath} {last : Segment} :
    (path.key.shape.push last, chain) ∈ s.template ↔
      (∃ node, s.nested? path.names = some node ∧ (path.key.push last, chain) ∈ node.ownEntries path.key) ∨
        (path.key.push last = Key.root.slot .junk ∧ s.junk = some chain) := by
  rw [ItemPath.shape_key_eq_under, mem_template_iff hs, mem_junkEntries_iff]
  refine or_congr ?own (and_congr_left' ?junk)
  case own =>
    constructor
    · rintro ⟨names, node, hnode, hown⟩
      obtain ⟨last', hkey, hmem⟩ := exists_push_of_mem_ownEntries hown
      obtain ⟨hnames, rfl⟩ := Key.push_inj.1 hkey
      rw [Key.under_injective hnames]
      exact ⟨node, hnode, hmem path.key⟩
    · -- The chain is under the same last segment at any key, so also at the names of the path.
      rintro ⟨node, hnode, hown⟩
      obtain ⟨last', hkey, hmem⟩ := exists_push_of_mem_ownEntries hown
      rw [(Key.push_inj.1 hkey).2]
      exact ⟨path.names, node, hnode, hmem (Key.root.under path.names)⟩
  case junk =>
    -- The names and the lists on the way to the root are none.
    have hnames : Key.root.under path.names = Key.root ↔ path = [] := by
      constructor
      · intro h
        exact List.map_eq_nil_iff.1 (@Key.under_injective .root path.names [] h)
      · rintro rfl
        rfl
    have hkey : path.key = Key.root ↔ path = [] := by
      constructor
      · intro h
        exact @ItemPath.segments_injective path [] (congrArg Key.segments h)
      · rintro rfl
        rfl
    rw [Key.slot, Key.push_inj, Key.push_inj, hnames, hkey]

end Schema

namespace Expansion

variable {s : Schema} {r : Record} {f : FlatValues} {k : Key} {chain : Chain}

/-- The expansion has a chain under a key when the key lies directly in an accepted object and the template
has the chain under its shape. -/
theorem get?_full_iff_template (hs : s.Distinct) (h : r.flatten = .ok f) :
    (Expansion.of s f).full.get? k = some chain ↔
      (Expansion.of s f).accepted.contains k.parent = true ∧
        Listed.get? k.shape s.template = some chain := by
  have haccepted : ∀ key, (Expansion.of s f).accepted.contains key = true ↔
      ∃ path : ItemPath, key = path.key ∧ s.Accepts f.keys path :=
    contains_acceptedNodes_iff hs h
  rw [get?_full_iff hs h, haccepted, hs.get?_template_iff]
  constructor
  · -- A chain of a node lies directly in its object; the junk slot lies in the record itself.
    rintro (⟨path, node, hpath, hnode, hown⟩ | ⟨rfl, hjunk⟩)
    · obtain ⟨last, rfl, -⟩ := Schema.exists_push_of_mem_ownEntries hown
      refine ⟨⟨path, Key.parent_push path.key last, hpath⟩, ?_⟩
      rw [ItemPath.shape_key_push]
      exact (Schema.mem_template_push_iff hs).2 (.inl ⟨node, hnode, hown⟩)
    · refine ⟨⟨[], Key.parent_slot, Schema.accepts_nil⟩, ?_⟩
      exact (@Schema.mem_template_push_iff s chain hs [] (.control .junk)).2 (.inr ⟨rfl, hjunk⟩)
  · rintro ⟨⟨path, hparent, hpath⟩, htemplate⟩
    rcases k.eq_root_or_push with rfl | ⟨l, last, rfl⟩
    · -- The root is no key of a template.
      obtain ⟨names, last, hroot⟩ := Schema.exists_push_of_mem_template hs htemplate
      exact absurd hroot (Key.root_ne_push _ last)
    · rw [Key.parent_push] at hparent
      rw [hparent, ItemPath.shape_key_push] at htemplate
      rw [hparent]
      rcases (Schema.mem_template_push_iff hs).1 htemplate with ⟨node, hnode, hown⟩ | hjunk
      · exact .inl ⟨path, node, hpath, hnode, hown⟩
      · exact .inr hjunk

/-- The expansion and the template agree at the accepted objects: each chain of the expansion lies directly
in an accepted object and is the one that the template has under its shape, and each chain that the template
has directly under the shape of an accepted object is in the expansion, under the key of the object. -/
theorem full_agrees_with_template (hs : s.Distinct) (h : r.flatten = .ok f) :
    (∀ k chain, (Expansion.of s f).full.get? k = some chain →
      (Expansion.of s f).accepted.contains k.parent = true ∧
        Listed.get? k.shape s.template = some chain) ∧
    ∀ p t chain, (Expansion.of s f).accepted.contains p = true →
      Listed.get? t s.template = some chain → t.parent = p.shape →
        ∃ last, t.last? = some last ∧ (Expansion.of s f).full.get? (p.push last) = some chain := by
  refine ⟨fun k chain hget => (get?_full_iff_template hs h).1 hget, ?_⟩
  intro p t chain haccepted hget hparent
  obtain ⟨path, rfl, -⟩ := (contains_acceptedNodes_iff hs h p).1 haccepted
  obtain ⟨names, last, rfl⟩ := Schema.exists_push_of_mem_template hs (hs.get?_template_iff.1 hget)
  rw [Key.parent_push] at hparent
  refine ⟨last, Key.last?_push _ last, (get?_full_iff_template hs h).2 ⟨?_, ?_⟩⟩
  · -- The parent of the key is the accepted object.
    rw [Key.parent_push]
    exact haccepted
  · rw [ItemPath.shape_key_push, ← hparent]
    exact hget

/-- Lists in lists with a chain in a slot at each level, and a chain for junk. -/
def slotted : Schema where
  fields := [("name", .leaf [ignored]), ("groups", .sub {
    fields := [("title", .leaf []), ("numbers", .sub { fields := [("code", .leaf [ignored])], extras := some [] })]
    before := some [ignored] })]
  after := some []
  junk := some [ignored]
where
  /-- A validator that makes every value missing. -/
  ignored : Validator := .converter fun _ => .ok .missing

/-- A record for it with two groups, the first of them without a title and with a number. -/
def twoGroups : Record where
  entries := [("groups", .arr [.obj [("numbers", .arr [.obj [("code", .int 1)]]), ("size", .int 2)],
    .obj [("title", .str "t")]])]
  sorted := by decide

/-- What flattening sees in it. -/
def twoGroupsFlat : FlatValues := .ofList [
  (⟨[.field "groups", .index 0, .field "size"]⟩, .int 2),
  (⟨[.field "groups", .index 1, .field "title"]⟩, .str "t"),
  (⟨[.field "groups", .index 0, .field "numbers", .index 0, .field "code"]⟩, .int 1)]

/-- Each of the two groups has the chains of the template, the one without a title too. -/
theorem full_agrees_with_template_twoGroups :
    slotted.Distinct ∧ twoGroups.flatten = .ok twoGroupsFlat ∧
    (Expansion.of slotted twoGroupsFlat).full.keys.map Key.text =
      ["name", "__after", "__junk", "groups[0].title", "groups[0].__before", "groups[1].title",
        "groups[1].__before", "groups[0].numbers[0].code", "groups[0].numbers[0].__extras"] ∧
    (∀ k chain, (Expansion.of slotted twoGroupsFlat).full.get? k = some chain →
      (Expansion.of slotted twoGroupsFlat).accepted.contains k.parent = true ∧
        Listed.get? k.shape slotted.template = some chain) ∧
    ∀ p t chain, (Expansion.of slotted twoGroupsFlat).accepted.contains p = true →
      Listed.get? t slotted.template = some chain → t.parent = p.shape → ∃ last,
        t.last? = some last ∧ (Expansion.of slotted twoGroupsFlat).full.get? (p.push last) = some chain :=
  have hs : slotted.Distinct := by decide
  have hflat : twoGroups.flatten = .ok twoGroupsFlat := rfl
  ⟨hs, hflat, by rfl, full_agrees_with_template hs hflat⟩

end Expansion

end FlatRecord
