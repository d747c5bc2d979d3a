import FlatRecord.Proofs.Schema.FullSchema
import FlatRecord.Proofs.Schema.Routing

/-!
# Misplaced values

A flat record cannot be filled up to a schema when an entry of it is misplaced, and then the first such
entry in key order is reported (`complete_eq_error_iff`).

Where every sub-schema has a leaf field, an entry other than the empty list is misplaced in two cases
(`route_eq_misplaced_iff_of_mem`). Either a list of objects should be in its place: the names of its
key lead to a sub-schema. Or the schema has a leaf in its place, but the object it lies in is cut off:
around it is an object without an entry of its own, and an object without entries is not accepted, nor
is anything inside it. `complete_eq_error_iff_misplaces` puts the two statements together.
-/

namespace FlatRecord

namespace Schema

variable {s node : Schema} {path : ItemPath} {name : String} {k : Key}

/-! ## What the schema has for a field -/

/-- The schema has a leaf field. -/
def HasLeaf (s : Schema) : Prop :=
  ∃ name chain, s.get? name = some (.leaf chain)

/-- Every schema declared inside the schema has a leaf field. -/
def LeafInEach (s : Schema) : Prop :=
  ∀ names node, names ≠ [] → s.nested? names = some node → node.HasLeaf

/-- The names of the key lead through sub-schemas to a field that is itself a sub-schema. -/
def AgainstList (s : Schema) (k : Key) : Prop :=
  ∃ (path : ItemPath) (name : String) (inner : Schema),
    k = path.key.field name ∧ s.nested? (path.names ++ [name]) = some inner

/-- The names of the key lead through sub-schemas to a leaf. -/
def AgainstLeaf (s : Schema) (k : Key) : Prop :=
  ∃ (path : ItemPath) (name : String) (node : Schema) (chain : Chain),
    k = path.key.field name ∧ s.nested? path.names = some node ∧ node.get? name = some (.leaf chain)

/-- Around the object of the field is an object in a list in which none of the keys lies directly. -/
def CutOff (keys : List Key) (k : Key) : Prop :=
  ∃ (path : ItemPath) (name : String), k = path.key.field name ∧
    ∃ j, 1 ≤ j ∧ j < path.length ∧ ∀ l ∈ keys, l.parent ≠ ItemPath.key (path.take j)

/-- The value is misplaced in a record with the given keys: it is not the empty list, and either a list
of objects should be in its place, or a leaf is there but the object around it is cut off. -/
def Misplaces (s : Schema) (keys : List Key) (k : Key) (v : Json) : Prop :=
  v.isEmptyList = false ∧ (s.AgainstList k ∨ (s.AgainstLeaf k ∧ CutOff keys k))

/-- A field is against a list if its names lead to a schema. -/
theorem againstList_field_iff : s.AgainstList (path.key.field name) ↔
    ∃ inner, s.nested? (path.names ++ [name]) = some inner := by
  constructor
  · rintro ⟨p, n, inner, hkey, hinner⟩
    obtain ⟨rfl, rfl⟩ := ItemPath.key_field_inj.1 hkey
    exact ⟨inner, hinner⟩
  · rintro ⟨inner, hinner⟩
    exact ⟨path, name, inner, rfl, hinner⟩

/-- A field is against a leaf if its names lead to one. -/
theorem againstLeaf_field_iff : s.AgainstLeaf (path.key.field name) ↔
    ∃ node chain, s.nested? path.names = some node ∧ node.get? name = some (.leaf chain) := by
  constructor
  · rintro ⟨p, n, node, chain, hkey, hnode, hleaf⟩
    obtain ⟨rfl, rfl⟩ := ItemPath.key_field_inj.1 hkey
    exact ⟨node, chain, hnode, hleaf⟩
  · rintro ⟨node, chain, hnode, hleaf⟩
    exact ⟨path, name, node, chain, rfl, hnode, hleaf⟩

/-- A field is cut off if an object on its way, before the one that it is a field of, has no key directly in
it. -/
theorem cutOff_field_iff {keys : List Key} : CutOff keys (path.key.field name) ↔
    ∃ j, 1 ≤ j ∧ j < path.length ∧ ∀ l ∈ keys, l.parent ≠ ItemPath.key (path.take j) := by
  constructor
  · rintro ⟨p, n, hkey, h⟩
    obtain ⟨rfl, rfl⟩ := ItemPath.key_field_inj.1 hkey
    exact h
  · exact fun h => ⟨path, name, rfl, h⟩

/-- A field is not a sub-schema and a leaf at once. -/
theorem AgainstList.not_againstLeaf (h : s.AgainstList k) : ¬ s.AgainstLeaf k := by
  rintro ⟨path, name, node, chain, rfl, hnode, hleaf⟩
  obtain ⟨inner, hinner⟩ := againstList_field_iff.1 h
  rw [nested?_append, hnode, Option.bind_some] at hinner
  obtain ⟨inner', hchild, -⟩ := nested?_cons_eq_some_iff.1 hinner
  rw [child?, hleaf] at hchild
  cases hchild

/-- Every schema inside has a leaf field when all those under the fields do, and those inside them. -/
theorem LeafInEach.of_fields
    (h : ∀ name inner, (name, Node.sub inner) ∈ s.fields → inner.EveryNode HasLeaf) : s.LeafInEach := by
  intro names node hne hnode
  cases names with
  | nil => exact absurd rfl hne
  | cons name names =>
    obtain ⟨inner, hchild, hnode⟩ := nested?_cons_eq_some_iff.1 hnode
    exact h name inner (mem_fields_of_child? hchild) names node hnode

/-- A leaf in each sub-schema makes every sub-schema a node with a chain. -/
theorem LeafInEach.hasChain (hleaf : s.LeafInEach) {names : List String} (hne : names ≠ [])
    (hnode : s.nested? names = some node) : node.HasChain :=
  .inl (hleaf names node hne hnode)

/-! ## Where the template leads on -/

/-- Of two paths of names one is the beginning of the other if it is so of the keys at their ends. -/
theorem startsWith_under_iff {names names' : List String} :
    (Key.root.under names').startsWith (Key.root.under names) = true ↔ names <+: names' := by
  rw [Key.startsWith, List.isPrefixOf_iff_prefix, Key.segments_under, Key.segments_under]
  exact List.prefix_map_iff_of_injective fun _ _ => Segment.field.inj

/-- A path of names that is the beginning of a slot is so of the node of the slot. -/
theorem startsWith_slot_under_iff {names names' : List String} {c : Control} :
    ((Key.root.under names').slot c).startsWith (Key.root.under names) = true ↔ names <+: names' := by
  have hslot : ((Key.root.under names').slot c).segments = names'.map .field ++ [.control c] := by
    show (Key.root.under names').segments ++ [Segment.control c] = _
    rw [Key.segments_under]
    rfl
  have hnames : (Key.root.under names).segments = names.map .field := Key.segments_under _ _
  rw [Key.startsWith, List.isPrefixOf_iff_prefix, hslot, hnames, List.prefix_concat_iff]
  constructor
  · rintro (heq | hbegin)
    · -- The last segment is a slot, and no name is one.
      have hmem : Segment.control c ∈ names.map Segment.field := by
        rw [heq]
        exact List.mem_append_right _ List.mem_cons_self
      obtain ⟨name, -, hname⟩ := List.mem_map.1 hmem
      cases hname
    · exact (List.prefix_map_iff_of_injective fun _ _ => Segment.field.inj).1 hbegin
  · exact fun hbegin => .inr (hbegin.map Segment.field)

/-- On the way to a node lie nodes. -/
theorem exists_nested?_of_isPrefix {names names' : List String} (hnode : s.nested? names' = some node)
    (hbegin : names <+: names') : ∃ inner, s.nested? names = some inner := by
  obtain ⟨rest, rfl⟩ := hbegin
  rw [nested?_append, Option.bind_eq_some_iff] at hnode
  obtain ⟨inner, hinner, -⟩ := hnode
  exact ⟨inner, hinner⟩

/-- A template key goes on from the given names when they lead to a sub-schema, or all but the last of
them to a schema in which that one is a leaf. -/
theorem leadsOn_under_concat_iff (hs : s.Distinct) (hleaf : s.LeafInEach) {names : List String} :
    s.template.leadsOn (Key.root.under (names ++ [name])) = true ↔
      (∃ inner, s.nested? (names ++ [name]) = some inner) ∨
        ∃ node chain, s.nested? names = some node ∧ node.get? name = some (.leaf chain) := by
  have hne : names ++ [name] ≠ [] := List.append_ne_nil_of_right_ne_nil _ (List.cons_ne_nil _ _)
  constructor
  · intro hleads
    obtain ⟨⟨k, chain⟩, hmem, hbegins⟩ := List.any_eq_true.1 hleads
    have hbegins : k.startsWith (Key.root.under (names ++ [name])) = true := hbegins
    rcases (mem_template_iff hs).1 hmem with ⟨names', node, hnode, hown⟩ | hjunk
    · rcases mem_ownEntries_iff.1 hown with ⟨last, hfield, rfl⟩ | ⟨slot, -, -, rfl⟩
      · -- The template key is that of a leaf: either it is all the names, or they end on the way to it.
        rw [← Key.under_concat, startsWith_under_iff, List.prefix_concat_iff] at hbegins
        rcases hbegins with heq | hbegin
        · obtain ⟨rfl, hlast⟩ := List.append_inj' heq rfl
          cases hlast
          exact .inr ⟨node, chain, hnode, (hs.nested hnode).get?_eq_some_iff.2 hfield⟩
        · exact .inl (exists_nested?_of_isPrefix hnode hbegin)
      · -- The template key is that of a slot, which lies in the schema to which its names lead.
        exact .inl (exists_nested?_of_isPrefix hnode (startsWith_slot_under_iff.1 hbegins))
    · -- The junk slot is at the root, and no names lead to it.
      obtain ⟨rfl, -⟩ := mem_junkEntries_iff.1 hjunk
      have hnil : names ++ [name] <+: [] := startsWith_slot_under_iff.1 hbegins
      exact absurd (List.prefix_nil.1 hnil) hne
  · -- A sub-schema with a chain of its own has a template key in it; a leaf is one itself.
    rintro (⟨inner, hinner⟩ | ⟨node, chain, hnode, hget⟩)
    · exact leadsOn_under hs hinner (hleaf.hasChain hne hinner) (List.prefix_refl _)
    · have hfield := (hs.nested hnode).get?_eq_some_iff.1 hget
      have hmem : ((Key.root.under names).field name, chain) ∈ s.template :=
        (mem_template_iff hs).2 (.inl ⟨names, node, hnode, field_mem_ownEntries hfield _⟩)
      refine List.any_eq_true.2 ⟨_, hmem, ?_⟩
      rw [← Key.under_concat]
      exact startsWith_under_iff.2 (List.prefix_refl _)

/-! ## Where an object is accepted -/

/-- The object in which an entry lies, and to whose node the names lead, is accepted unless there is an
object around it in which no entry lies directly. -/
theorem accepts_iff_not_cutOff {r : Record} {f : FlatValues} (h : r.flatten = .ok f)
    (hleaf : s.LeafInEach) (hnode : s.nested? path.names = some node)
    (hmem : path.key.field name ∈ f.keys) :
    s.Accepts f.keys path ↔ ¬ CutOff f.keys (path.key.field name) := by
  -- A key that begins with that of an object on the way and is one segment longer lies directly in it.
  have hdirect : ∀ j, j ≤ path.length → ∀ l ∈ f.keys,
      (l.length = 2 * j + 1 ∧ l.startsWith (ItemPath.key (path.take j)) = true ↔
        l.parent = ItemPath.key (path.take j)) := by
    intro j hj l hl
    have hlength : (path.take j).length = j := List.length_take_of_le hj
    obtain ⟨q, n, rfl⟩ := Record.exists_eq_field_of_mem_keys h hl
    have hstarts := @ItemPath.startsWith_key_iff (path.take j) q n
    rw [hlength] at hstarts
    rw [hstarts, Key.parent_field]
    exact ⟨fun heq => by rw [heq], fun heq => ItemPath.segments_injective (congrArg Key.segments heq)⟩
  rw [cutOff_field_iff]
  constructor
  · -- Were the entry cut off, an object on the way would have no entry directly in it.
    rintro haccepts ⟨j, hj, hlt, hnone⟩
    obtain ⟨-, l, hl, hbelow⟩ := haccepts j hj (Nat.le_of_lt hlt)
    exact hnone l hl ((hdirect j (Nat.le_of_lt hlt) l hl).1 hbelow)
  · intro hcut j hj hle
    -- The names lead to a node, so a beginning of them leads to one too, which has a chain.
    constructor
    · have hbegin : ItemPath.names (path.take j) <+: path.names := (List.take_prefix j path).map _
      obtain ⟨inner, hinner⟩ := exists_nested?_of_isPrefix hnode hbegin
      refine ⟨inner, hinner, hleaf.hasChain (fun hnil => ?_) hinner⟩
      have hlength : (path.take j).length = j := List.length_take_of_le hle
      rw [List.map_eq_nil_iff.1 hnil, List.length_nil] at hlength
      omega
    · -- The entry lies directly in its own object, and some entry does in each object around.
      have hexists : ∃ l ∈ f.keys, l.parent = ItemPath.key (path.take j) := by
        rcases Nat.lt_or_ge j path.length with hlt | hge
        · refine Classical.byContradiction fun hnone => ?_
          exact hcut ⟨j, hj, hlt, fun l hl hparent => hnone ⟨l, hl, hparent⟩⟩
        · rw [List.take_of_length_le hge]
          exact ⟨_, hmem, Key.parent_field⟩
      obtain ⟨l, hl, hparent⟩ := hexists
      exact ⟨l, hl, (hdirect j hle l hl).2 hparent⟩

end Schema

/-! ## Misplaced entries -/

namespace Expansion

variable {s node : Schema} {r : Record} {f : FlatValues} {path : ItemPath} {name : String} {k : Key}
  {v : Json}

/-- The expansion has a chain for a field exactly when the field is a leaf of an accepted object. -/
theorem contains_full_field_iff (hs : s.Distinct) (h : r.flatten = .ok f) :
    (Expansion.of s f).full.contains (path.key.field name) = true ↔
      s.Accepts f.keys path ∧ s.AgainstLeaf (path.key.field name) := by
  rw [SortedMap.contains_iff, Schema.againstLeaf_field_iff]
  simp only [get?_full_field_iff hs h]
  constructor
  · rintro ⟨chain, haccepts, node, hnode, hget⟩
    exact ⟨haccepts, node, chain, hnode, hget⟩
  · rintro ⟨haccepts, node, chain, hnode, hget⟩
    exact ⟨chain, haccepts, node, hnode, hget⟩

/-- The expansion finds an entry misplaced exactly when it is so by the schema and the keys. -/
theorem route_eq_misplaced_iff_of_mem (hs : s.Distinct) (hleaf : s.LeafInEach) (h : r.flatten = .ok f)
    (hk : f.get? k = some v) :
    (Expansion.of s f).route k v = .misplaced ↔ s.Misplaces f.keys k v := by
  have hmem : k ∈ f.keys := SortedMap.mem_keys_of_get? hk
  obtain ⟨path, name, rfl⟩ := Record.exists_eq_field_of_mem_keys h hmem
  have hleads : (Expansion.of s f).template.leadsOn (path.key.field name).shape = true ↔
      s.AgainstList (path.key.field name) ∨ s.AgainstLeaf (path.key.field name) := by
    rw [ItemPath.shape_key_field, Schema.againstList_field_iff, Schema.againstLeaf_field_iff]
    exact Schema.leadsOn_under_concat_iff hs hleaf
  unfold Schema.Misplaces
  rw [route_eq_misplaced_iff, hleads, ← Bool.not_eq_true, contains_full_field_iff hs h]
  constructor
  · -- Against a leaf: were the entry not cut off, its object would be accepted and it would have a chain.
    rintro ⟨hfull, hlist | hown, hvalue⟩
    · exact ⟨hvalue, .inl hlist⟩
    · obtain ⟨node, chain, hnode, -⟩ := Schema.againstLeaf_field_iff.1 hown
      have hcut : Schema.CutOff f.keys (path.key.field name) :=
        Classical.byContradiction fun hcut =>
          hfull ⟨(Schema.accepts_iff_not_cutOff h hleaf hnode hmem).2 hcut, hown⟩
      exact ⟨hvalue, .inr ⟨hown, hcut⟩⟩
  · -- Conversely the entry has no chain: it is no leaf, or its object is not accepted.
    rintro ⟨hvalue, hlist | ⟨hown, hcut⟩⟩
    · exact ⟨fun hfull => hlist.not_againstLeaf hfull.2, .inl hlist, hvalue⟩
    · obtain ⟨node, chain, hnode, -⟩ := Schema.againstLeaf_field_iff.1 hown
      exact ⟨fun hfull => (Schema.accepts_iff_not_cutOff h hleaf hnode hmem).1 hfull.1 hcut, .inr hown,
        hvalue⟩

/-! ## The error -/

/-- A pass over entries fails at the first one that is misplaced. -/
theorem foldlM_routeEntry_eq_error_iff {e : Expansion} {entries : List (Key × Json)} {r : Routed}
    {err : StructureError} :
    entries.foldlM (fun r entry => e.routeEntry r entry.1 entry.2) r = .error err ↔
      ∃ before k v after, entries = before ++ (k, v) :: after ∧
        (∀ entry ∈ before, e.route entry.1 entry.2 ≠ .misplaced) ∧ e.route k v = .misplaced ∧
        err = .misplaced k v.typeName := by
  induction entries generalizing r with
  -- Without entries there is neither an error nor a misplaced entry.
  | nil =>
    refine ⟨nofun, ?_⟩
    rintro ⟨before, k, v, after, hnil, -⟩
    exact absurd hnil.symm (List.append_ne_nil_of_right_ne_nil _ (List.cons_ne_nil _ _))
  | cons entry rest ih =>
    obtain ⟨k₀, v₀⟩ := entry
    rw [List.foldlM_cons]
    by_cases hroute : e.route k₀ v₀ = .misplaced
    · -- The first entry is misplaced, and the pass fails there.
      rw [routeEntry_of_misplaced r hroute]
      constructor
      · intro herr
        exact ⟨[], k₀, v₀, rest, rfl, nofun, hroute, (Except.error.inj herr).symm⟩
      · rintro ⟨before, k, v, after, hsplit, hbefore, -, rfl⟩
        cases before with
        | nil =>
          cases hsplit
          rfl
        -- The first misplaced entry is none of the later ones.
        | cons entry before =>
          obtain ⟨rfl, -⟩ := List.cons.inj hsplit
          exact absurd hroute (hbefore _ List.mem_cons_self)
    · -- The first entry finds a place, and the pass over the rest fails or not.
      obtain ⟨r', hr'⟩ := exists_routeEntry e r hroute
      rw [hr']
      refine (ih (r := r')).trans ?_
      constructor
      · rintro ⟨before, k, v, after, rfl, hbefore, hk⟩
        exact ⟨(k₀, v₀) :: before, k, v, after, rfl, List.forall_mem_cons.2 ⟨hroute, hbefore⟩, hk⟩
      · -- The misplaced entry is not the first one, so it is one of the rest.
        rintro ⟨before, k, v, after, hsplit, hbefore, hk, herr⟩
        cases before with
        | nil =>
          cases hsplit
          exact absurd hk hroute
        | cons entry before =>
          obtain ⟨-, rfl⟩ := List.cons.inj hsplit
          exact ⟨before, k, v, after, rfl, (List.forall_mem_cons.1 hbefore).2, hk, herr⟩

/-- A record cannot be filled up exactly when an entry is misplaced, and the error names the first such
entry in key order and what it is. -/
theorem complete_eq_error_iff {e : Expansion} {err : StructureError} :
    e.complete f = .error err ↔ ∃ k v, f.get? k = some v ∧ e.route k v = .misplaced ∧
      (∀ k' v', f.get? k' = some v' → e.route k' v' = .misplaced → k' = k ∨ compare k k' = .lt) ∧
      err = .misplaced k v.typeName := by
  have hroute : e.complete f = .error err ↔ e.routeAll f = .error err := by
    unfold complete
    cases e.routeAll f <;> simp [Except.map]
  rw [hroute, routeAll, foldlM_routeEntry_eq_error_iff]
  constructor
  · rintro ⟨before, k, v, after, hentries, hbefore, hk, rfl⟩
    have hmem : (k, v) ∈ f.entries := by
      rw [hentries]
      exact List.mem_append_right _ List.mem_cons_self
    refine ⟨k, v, (SortedMap.get?_eq_some_iff f).2 hmem, hk, fun k' v' hk' hmis => ?_, rfl⟩
    have hmem' := (SortedMap.get?_eq_some_iff f).1 hk'
    rw [hentries, List.mem_append, List.mem_cons] at hmem'
    rcases hmem' with hin | heq | hin
    · exact absurd hmis (hbefore _ hin)
    · exact .inl (congrArg Prod.fst heq)
    · -- What comes after an entry has the greater key.
      obtain ⟨done, rest, rfl⟩ := List.append_of_mem hin
      have hafter : f.entries = (before ++ (k, v) :: done) ++ (k', v') :: rest := by
        rw [hentries, List.append_assoc]
        rfl
      exact .inr (SortedMap.lt_of_append hafter (List.mem_append_right _ List.mem_cons_self))
  · rintro ⟨k, v, hk, hmis, hleast, rfl⟩
    obtain ⟨before, after, hentries⟩ := List.append_of_mem ((SortedMap.get?_eq_some_iff f).1 hk)
    refine ⟨before, k, v, after, hentries, fun entry hin hentry => ?_, hmis, rfl⟩
    have hlt : compare entry.1 k = .lt := SortedMap.lt_of_append hentries hin
    have hget : f.get? entry.1 = some entry.2 := by
      refine (SortedMap.get?_eq_some_iff f).2 ?_
      rw [hentries]
      exact List.mem_append_left _ hin
    rcases hleast _ _ hget hentry with heq | hgt
    · exact Ascending.ne_of_lt hlt heq
    · have hself : compare k k = .lt := Std.TransCmp.lt_trans hgt hlt
      exact Ascending.ne_of_lt hself rfl

/-- Filling a record up to a schema whose sub-schemas all have a leaf field fails exactly when an entry
of the record is misplaced. The error names the first such entry and what it is. -/
theorem complete_eq_error_iff_misplaces (hs : s.Distinct) (hleaf : s.LeafInEach)
    (h : r.flatten = .ok f) :
    ((∃ err, (Expansion.of s f).complete f = .error err) ↔
      ∃ k v, f.get? k = some v ∧ s.Misplaces f.keys k v) ∧
    ∀ err, (Expansion.of s f).complete f = .error err →
      ∃ k v, f.get? k = some v ∧ s.Misplaces f.keys k v ∧
        (∀ k' v', f.get? k' = some v' → s.Misplaces f.keys k' v' → k' = k ∨ compare k k' = .lt) ∧
        err = .misplaced k v.typeName := by
  have hroute : ∀ {k v}, f.get? k = some v →
      ((Expansion.of s f).route k v = .misplaced ↔ s.Misplaces f.keys k v) :=
    fun hk => route_eq_misplaced_iff_of_mem hs hleaf h hk
  have herror : ∀ err, (Expansion.of s f).complete f = .error err →
      ∃ k v, f.get? k = some v ∧ s.Misplaces f.keys k v ∧
        (∀ k' v', f.get? k' = some v' → s.Misplaces f.keys k' v' → k' = k ∨ compare k k' = .lt) ∧
        err = .misplaced k v.typeName := by
    intro err herr
    obtain ⟨k, v, hk, hmis, hleast, rfl⟩ := complete_eq_error_iff.1 herr
    exact ⟨k, v, hk, (hroute hk).1 hmis, fun k' v' hk' hmis' => hleast k' v' hk' ((hroute hk').2 hmis'), rfl⟩
  refine ⟨⟨fun ⟨err, herr⟩ => ?_, fun ⟨k, v, hk, hmis⟩ => ?_⟩, herror⟩
  · obtain ⟨k, v, hk, hmis, -⟩ := herror err herr
    exact ⟨k, v, hk, hmis⟩
  · cases hcomplete : (Expansion.of s f).complete f with
    | error err => exact ⟨err, rfl⟩
    | ok data =>
      exact absurd ((hroute hk).2 hmis) (exists_complete_iff.1 ⟨data, hcomplete⟩ k v hk)

/-! A record with an entry of each kind, and one whose misplaced entries are all those of leaves. -/

/-- A text stands where the first object has a list. -/
def flatList : Record where
  entries := [("a", .arr [.obj [("b", .str "x"), ("c", .int 1)],
    .obj [("b", .arr [.obj [("d", .int 2)]])]])]
  sorted := by decide

/-- The three values that flattening sees in it. -/
def flatListValues : FlatValues := .ofList [
  (⟨[.field "a", .index 0, .field "b"]⟩, .str "x"),
  (⟨[.field "a", .index 0, .field "c"]⟩, .int 1),
  (⟨[.field "a", .index 1, .field "b", .index 0, .field "d"]⟩, .int 2)]

/-- Both lists of the layered schema have a leaf in their objects. -/
theorem leafInEach_layered : layered.LeafInEach :=
  .of_fields fun name inner hmem => by
    cases List.mem_singleton.1 hmem
    refine .of_fields ⟨"c", [], rfl⟩ fun name inner hmem => ?_
    rw [List.mem_cons, List.mem_singleton] at hmem
    rcases hmem with hb | hc
    · cases hb
      refine .of_fields ⟨"d", [], rfl⟩ fun name inner hmem => ?_
      cases List.mem_singleton.1 hmem
    · cases hc

/-- The text in the place of a list is reported, under its key and with its type. -/
theorem complete_eq_error_iff_misplaces_flatList :
    layered.Distinct ∧ layered.LeafInEach ∧ flatList.flatten = .ok flatListValues ∧
      (Expansion.of layered flatListValues).complete flatListValues =
        .error (.misplaced ⟨[.field "a", .index 0, .field "b"]⟩ "string") ∧
      (((∃ err, (Expansion.of layered flatListValues).complete flatListValues = .error err) ↔
        ∃ k v, flatListValues.get? k = some v ∧ layered.Misplaces flatListValues.keys k v) ∧
      ∀ err, (Expansion.of layered flatListValues).complete flatListValues = .error err →
        ∃ k v, flatListValues.get? k = some v ∧ layered.Misplaces flatListValues.keys k v ∧
          (∀ k' v', flatListValues.get? k' = some v' → layered.Misplaces flatListValues.keys k' v' →
            k' = k ∨ compare k k' = .lt) ∧
          err = .misplaced k v.typeName) :=
  have hs : layered.Distinct := by decide
  have hflat : flatList.flatten = .ok flatListValues := rfl
  ⟨hs, leafInEach_layered, hflat, rfl,
    complete_eq_error_iff_misplaces hs leafInEach_layered hflat⟩

/-- A record without any entry at the place of a list is not filled up either: the leaf of the inner
list is reported, as the object around that list has nothing else. -/
theorem complete_eq_error_hollow :
    layered.Distinct ∧ layered.LeafInEach ∧ hollow.flatten = .ok hollowFlat ∧
      (Expansion.of layered hollowFlat).complete hollowFlat =
        .error (.misplaced ⟨[.field "a", .index 0, .field "b", .index 0, .field "d"]⟩ "number") ∧
      ¬ ∃ k v, hollowFlat.get? k = some v ∧ layered.AgainstList k ∧ v.isEmptyList = false := by
  refine ⟨by decide, leafInEach_layered, rfl, rfl, ?_⟩
  rintro ⟨k, v, hk, hlist, -⟩
  have hmem : k ∈ hollowFlat.keys := SortedMap.mem_keys_of_get? hk
  have hkeys : hollowFlat.keys = [ItemPath.key [("a", 1)] |>.field "c",
      ItemPath.key [("a", 0), ("b", 0)] |>.field "d", ItemPath.key [("a", 1), ("b", 0)] |>.field "d"] := rfl
  -- Each of the three entries is that of a leaf.
  have hleaf : layered.AgainstLeaf k := by
    rw [hkeys, List.mem_cons, List.mem_cons, List.mem_singleton] at hmem
    rcases hmem with rfl | rfl | rfl
    · exact ⟨_, _, _, _, rfl, rfl, rfl⟩
    · exact ⟨_, _, _, _, rfl, rfl, rfl⟩
    · exact ⟨_, _, _, _, rfl, rfl, rfl⟩
  exact hlist.not_againstLeaf hleaf

end Expansion

end FlatRecord
