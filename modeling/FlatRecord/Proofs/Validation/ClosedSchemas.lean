import FlatRecord.Proofs.Validation.Clearing
import FlatRecord.Proofs.Validation.Concatenation

/-!
# Closed schemas

A schema is *closed* when every node drops the fields that it does not name, junk is dropped, and the
validators of the fields write under their own keys only (`Schema.Closed`). Whatever a record holds, the
outcome has declared fields only, on all levels (`validate_closed`); `Schema.Conforms` says so of an
object. The empty lists that are put back at the top are the one exception.

In the end of a run only the keys of leaf fields have values
(`Schema.Closed.declares_of_get?_supplied`), and a tree whose values are all at leaf fields makes a record
that conforms (`Tree.DeclaredBy.conforms_toRecord`).
-/

namespace FlatRecord

namespace Schema

/-- An object conforms to a schema: all its names are declared, and under the names of sub-schemas there
are lists of objects that conform to these. -/
inductive Conforms : Schema → List (String × Json) → Prop
  /-- What the fields of the object have to be. -/
  | intro {s : Schema} {fields : List (String × Json)}
      (declared : ∀ field ∈ fields, field.1 ∈ s.fieldNames)
      (lists : ∀ name inner v, s.child? name = some inner → (name, v) ∈ fields →
        ∃ items, v = .arr items ∧ ∀ item ∈ items, item.isObject = true)
      (items : ∀ name inner items fields', s.child? name = some inner →
        (name, .arr items) ∈ fields → .obj fields' ∈ items → Conforms inner fields') :
      Conforms s fields

/-- The segments lead to a leaf field through items of lists that are declared as such. -/
inductive Declares : Schema → List Segment → Prop
  /-- A leaf field of the schema itself. -/
  | leaf {s : Schema} {name : String} {chain : Chain} (field : (name, Node.leaf chain) ∈ s.fields) :
      Declares s [.field name]
  /-- A leaf field inside an item. -/
  | item {s inner : Schema} {name : String} {position : Nat} {rest : List Segment}
      (child : s.child? name = some inner) (below : Declares inner rest) :
      Declares s (.field name :: .index position :: rest)

variable {s inner node : Schema} {segment : Segment} {path : List Segment} {name : String}

/-- A leaf field of a nested schema is one to which segments lead. -/
theorem declares_of_nested {p : ItemPath} {chain : Chain} (hnode : s.nested? p.names = some node)
    (hfield : (name, Node.leaf chain) ∈ node.fields) :
    s.Declares (ItemPath.segments p ++ [.field name]) := by
  induction p generalizing s with
  | nil =>
    cases hnode
    exact .leaf hfield
  | cons step p ih =>
    obtain ⟨inner, hchild, hnode⟩ := nested?_cons_eq_some_iff.1 hnode
    exact .item hchild (ih hnode)

/-- The first segment is a declared name. -/
theorem Declares.exists_field (h : s.Declares (segment :: path)) :
    ∃ name ∈ s.fieldNames, segment = .field name := by
  cases h with
  | leaf field => exact ⟨_, List.mem_map.2 ⟨_, field, rfl⟩, rfl⟩
  | item child below =>
    obtain ⟨n, hget, -⟩ := Option.bind_eq_some_iff.1 child
    exact ⟨_, List.mem_map.2 ⟨_, Listed.mem_of_get? hget, rfl⟩, rfl⟩

/-- Behind the name of a sub-schema come a position and segments that lead to a field of its. -/
theorem Declares.exists_index (hs : s.Distinct) (hchild : s.child? name = some inner)
    (h : s.Declares (.field name :: path)) :
    ∃ position rest, path = .index position :: rest ∧ inner.Declares rest := by
  cases h with
  | leaf field =>
    -- The name is not that of a leaf field.
    have hleaf := hs.get?_eq_some_iff.2 field
    have hsub := hs.get?_eq_some_iff.2 ((child?_eq_some_iff hs).1 hchild)
    cases hleaf.symm.trans hsub
  | item child below =>
    cases hchild.symm.trans child
    exact ⟨_, _, rfl, below⟩

end Schema

/-! ## Trees of declared values -/

namespace Tree

variable {s inner : Schema} {t : Tree}

/-- All values of the tree are at leaf fields of the schema. -/
def DeclaredBy (s : Schema) (t : Tree) : Prop := ∀ path v, find? path t = some v → s.Declares path

/-- A child stands under a declared name. -/
theorem DeclaredBy.exists_field (h : t.DeclaredBy s) (ht : t.Proper) {c : Segment × Tree}
    (hc : c ∈ t.children) : ∃ name ∈ s.fieldNames, c.1 = .field name := by
  obtain ⟨hne, hproper⟩ := ht.of_mem_children hc
  obtain ⟨path, v, hv⟩ := hproper.exists_find? hne
  exact (h _ v (ht.find?_of_mem_children hc hv)).exists_field

/-- The value of a tree of declared values is an object. -/
theorem DeclaredBy.toJson_eq (h : t.DeclaredBy s) (ht : t.Proper) :
    toJson t = .ofRecord t.toRecord := by
  cases t with
  | leaf value => cases h [] value rfl
  | branch children =>
    refine toJson_branch_of_not_isIndex fun c hc => ?_
    obtain ⟨name, -, hname⟩ := h.exists_field ht hc
    rw [hname]
    rfl

/-- The value of a child under the name of a sub-schema is a list of the objects of trees whose values are
declared by the sub-schema. -/
theorem exists_items_of_forall_index (ht : t.Proper) (hne : t ≠ branch [])
    (h : ∀ path v, find? path t = some v →
      ∃ position rest, path = .index position :: rest ∧ inner.Declares rest) :
    ∃ items, toJson t = .arr items ∧ ∀ item ∈ items, ∃ u : Tree, u.Proper ∧ u.DeclaredBy inner ∧
      item = .ofRecord u.toRecord := by
  cases t with
  | leaf value =>
    -- A value stands at the root alone, which is not behind a position.
    obtain ⟨position, rest, hpath, -⟩ := h [] value rfl
    cases hpath
  | branch children =>
    have hindex : ∀ c ∈ children, c.1.isIndex = true := by
      intro c hc
      obtain ⟨hne, hproper⟩ := ht.of_mem_children hc
      obtain ⟨path, v, hv⟩ := hproper.exists_find? hne
      obtain ⟨position, rest, hpath, -⟩ := h _ v (ht.find?_of_mem_children hc hv)
      rw [(List.cons.inj hpath).1]
      rfl
    have hchildren : children ≠ [] := fun hnil => hne (congrArg branch hnil)
    refine ⟨_, toJson_branch_of_isIndex hchildren hindex, fun item hitem => ?_⟩
    obtain ⟨c, hc, rfl⟩ := List.mem_map.1 hitem
    -- What is found in a child is found in the tree behind the position of the child.
    have hdeclared : c.2.DeclaredBy inner := by
      intro path v hv
      obtain ⟨position, rest, hpath, hrest⟩ := h _ v (ht.find?_of_mem_children hc hv)
      rw [(List.cons.inj hpath).2]
      exact hrest
    have hproper : c.2.Proper := (ht.of_mem_children hc).2
    exact ⟨c.2, hproper, hdeclared, hdeclared.toJson_eq hproper⟩

/-- A field in the record of a tree of declared values is declared, and has the value of a child. -/
theorem DeclaredBy.exists_child (ht : t.Proper) (h : t.DeclaredBy s) {field : String × Json}
    (hfield : field ∈ t.toRecord.entries) :
    ∃ c ∈ t.children, c.1 = .field field.1 ∧ field.1 ∈ s.fieldNames ∧ field.2 = toJson c.2 := by
  obtain ⟨c, hc, hname, hvalue⟩ :=
    exists_of_get?_toRecord ((SortedMap.get?_eq_some_iff _).2 hfield)
  obtain ⟨name, hmem, hc'⟩ := h.exists_field ht hc
  rw [hc'] at hname
  have hname : name = field.1 := hname
  subst hname
  exact ⟨c, hc, hc', hmem, hvalue⟩

/-- Under the name of a sub-schema the record of a tree of declared values has a list of the objects of such
trees. -/
theorem DeclaredBy.exists_items (hs : s.Distinct) (ht : t.Proper) (h : t.DeclaredBy s)
    (hchild : s.child? name = some inner) {v : Json} (hfield : (name, v) ∈ t.toRecord.entries) :
    ∃ items, v = .arr items ∧ ∀ item ∈ items, ∃ u : Tree, u.Proper ∧ u.DeclaredBy inner ∧
      item = .ofRecord u.toRecord := by
  obtain ⟨c, hc, hname, -, rfl⟩ := h.exists_child ht hfield
  obtain ⟨hne, hproper⟩ := ht.of_mem_children hc
  refine exists_items_of_forall_index hproper hne fun path v hv => ?_
  have hpath := h _ v (ht.find?_of_mem_children hc hv)
  rw [hname] at hpath
  exact hpath.exists_index hs hchild

/-- The record of a tree of declared values conforms to the schema. -/
theorem DeclaredBy.conforms_toRecord (hs : s.Distinct) (ht : t.Proper) (h : t.DeclaredBy s) :
    s.Conforms t.toRecord.entries := by
  induction s using Schema.induction generalizing t with
  | step s ih =>
    refine .intro (fun field hfield => ?_) (fun name inner v hchild hfield => ?_)
      fun name inner items fields hchild hfield hitem => ?_
    · obtain ⟨c, -, -, hmem, -⟩ := h.exists_child ht hfield
      exact hmem
    · obtain ⟨items, rfl, hitems⟩ := h.exists_items hs ht hchild hfield
      refine ⟨items, rfl, fun item hitem => ?_⟩
      obtain ⟨u, -, -, rfl⟩ := hitems item hitem
      rfl
    · -- An object of the list is that of a tree declared by the sub-schema, whose record conforms to it.
      obtain ⟨items', heq, hitems⟩ := h.exists_items hs ht hchild hfield
      cases heq
      obtain ⟨u, hu, hdeclared, heq⟩ := hitems _ hitem
      cases heq
      have hinner := (Schema.child?_eq_some_iff hs).1 hchild
      have hdistinct : inner.Distinct := (Schema.distinct_iff.1 hs).2 name inner hinner
      exact ih name inner hinner hdistinct hu hdeclared

end Tree

/-! ## Runs -/

/-- A rule that writes under its own key only: it neither moves extras nor spreads tags. -/
def Rule.StaysPut (rule : Rule) : Prop := rule ≠ .keepExtras ∧ ∀ list, rule ≠ .spreadTags list

/-- Every node drops the fields that it does not name, junk is dropped, and the fields have rules that
write under their own keys only. -/
structure Schema.Closed (s : Schema) : Prop where
  /-- The nodes, the schema itself included. -/
  nodes : s.EveryNode (OnlyExtras [Rule.ignore.validator] (Chain.OfRules Rule.StaysPut))
  /-- Junk is dropped. -/
  junk : s.junk = some [Rule.ignore.validator]

section Clears

variable {kept : Key → Prop} {key : Key} {chain : Chain}

/-- Where a rule stays put, it writes under its own key only. -/
theorem Rule.StaysPut.eq_of_writes {rule : Rule} (h : rule.StaysPut) {data : FlatData} {k : Key}
    (hk : rule.Writes key data k) : k = key := by
  rcases hk with hkey | hother
  · exact hkey
  · cases rule with
    | keepExtras => exact absurd rfl h.1
    | spreadTags list => exact absurd rfl (h.2 list)
    | _ => exact hother.elim

/-- A chain of rules that stay put changes the value of its key only. -/
theorem Chain.OfRules.get?_run_of_ne (h : chain.OfRules Rule.StaysPut) (w : Work) {k : Key}
    (hk : k ≠ key) : (chain.run key w).data.get? k = w.data.get? k := by
  refine h.run_invariant (P := fun w' => w'.data.get? k = w.data.get? k) ?_ rfl
  intro rule hrule w' hw'
  exact ((rule.effect_apply key w').data k fun hwrites => hk (hrule.eq_of_writes hwrites)).trans hw'

/-- Such a chain clears its key if that is to be kept. -/
theorem Chain.OfRules.clears (h : chain.OfRules Rule.StaysPut) (hkey : kept key) :
    chain.Clears kept key := by
  intro w k hk
  by_cases heq : k = key
  · rw [heq]
    exact .inl hkey
  · rw [SortedMap.contains, h.get?_run_of_ne w heq] at hk
    exact .inr ⟨hk, heq⟩

/-- Dropping what is under a key clears the key. -/
theorem clears_ignore : Chain.Clears kept key [Rule.ignore.validator] := by
  intro w k hk
  have hk : (w.data.erase key).contains k = true := hk
  by_cases heq : k = key
  · rw [heq, SortedMap.contains, SortedMap.get?_erase_self] at hk
    cases hk
  · rw [SortedMap.contains, SortedMap.get?_erase_of_ne _ heq] at hk
    exact .inr ⟨hk, heq⟩

end Clears

/-! ## Validation -/

section Validation

variable {s : Schema} {r : Record} {f : FlatValues} {c : Context} {w : Work}

/-- In the end of a run with a closed schema there are values at leaf fields only. -/
theorem Schema.Closed.declares_of_get?_supplied (hclosed : s.Closed) (hs : s.Distinct)
    (hr : r.flatten = .ok f) (hw : validateFlat f s c = .ok w) {k : Key} {v : Json}
    (hk : (FlatData.supplied w.data).get? k = some v) : s.Declares k.segments := by
  obtain ⟨a, ha, -⟩ := validateFlat_eq_ok_iff.1 hw
  -- A value in the end is one under a key of the state.
  have hcontains : w.data.contains k = true := by
    rw [FlatData.get?_supplied, FlatData.datum] at hk
    unfold SortedMap.contains
    cases hget : w.data.get? k with
    | some d => rfl
    | none =>
      rw [hget] at hk
      cases hk
  -- Every key of the state is that of a leaf, since the slots clear what is stored in them.
  have hleaf : Expansion.IsLeaf s f k := by
    refine kept_of_validateFlat ha (fun k hk => ?_) (fun k chain hget => ?_) hw hcontains
    · exact Expansion.contains_full_of_contains_complete hs hr hclosed.nodes ha
        (fun _ => ⟨_, hclosed.junk⟩) hk
    · rcases Expansion.get?_full_cases hs hr hclosed.nodes hget with ⟨hleaf, hchain⟩ | ⟨-, -, rfl⟩ |
        ⟨-, hjunk⟩
      · exact hchain.clears hleaf
      · exact clears_ignore
      · cases hclosed.junk.symm.trans hjunk
        exact clears_ignore
  obtain ⟨path, node, name, chain, -, hnode, hfield, rfl⟩ := hleaf
  exact Schema.declares_of_nested hnode hfield

/-- The values that a run with a closed schema leaves are nested to a record that conforms. -/
theorem Schema.Closed.conforms_nest (hclosed : s.Closed) (hs : s.Distinct) (hr : r.flatten = .ok f)
    (hw : validateFlat f s c = .ok w) : s.Conforms (FlatData.supplied w.data).nest.entries := by
  have hdeclared : (Tree.ofFlat (FlatData.supplied w.data)).DeclaredBy s := fun path v hv =>
    hclosed.declares_of_get?_supplied hs hr hw (Tree.find?_ofFlat_iff.1 hv).2.1
  exact hdeclared.conforms_toRecord hs (Tree.proper_ofFlat _)

/-- With a closed schema no undeclared field gets through. A name at the top of the outcome is declared,
or the record has the empty list there; and under the name of a sub-schema there is a list of objects
that conform to the sub-schema. -/
theorem validate_closed {o : Outcome} (hs : s.Distinct) (hclosed : s.Closed)
    (ho : validate r s c = .ok o) :
    (∀ name v, o.data.get? name = some v → name ∈ s.fieldNames ∨ r.get? name = some (.arr [])) ∧
      ∀ name inner v, s.child? name = some inner → o.data.get? name = some v →
        ∃ items, v = .arr items ∧ ∀ item ∈ items, ∃ fields, item = .obj fields ∧
          inner.Conforms fields := by
  obtain ⟨f, w, hr, hw, rfl⟩ := validate_eq_ok_iff.1 ho
  obtain ⟨hnames, hlists, hitems⟩ := hclosed.conforms_nest hs hr hw
  -- A value of the outcome is one of the nested record, or an empty list that was put back.
  refine ⟨fun name v hv => ?_, fun name inner v hchild hv => ?_⟩
  · -- A name in the nested record is declared; a name put back had the empty list.
    rcases of_get?_putBack hv with hget | ⟨hrestored, -⟩
    · exact .inl (hnames (name, v) ((SortedMap.get?_eq_some_iff _).1 hget))
    · exact .inr (get?_of_mem_restored hrestored)
  · rcases of_get?_putBack hv with hget | ⟨-, rfl⟩
    · have hfield := (SortedMap.get?_eq_some_iff _).1 hget
      obtain ⟨items, rfl, hobjects⟩ := hlists name inner v hchild hfield
      refine ⟨items, rfl, fun item hitem => ?_⟩
      obtain ⟨fields, rfl⟩ := Json.exists_eq_obj (hobjects item hitem)
      exact ⟨fields, rfl, hitems name inner items fields hchild hfield hitem⟩
    · exact ⟨[], rfl, nofun⟩

end Validation

/-- Lists of objects on two levels, closed, with a field that has a value for want of one. -/
def guarded : Schema where
  fields := [
    ("a", .leaf [(Rule.default (.int 0)).validator]),
    ("b", .sub {
      fields := [
        ("c", .leaf [Rule.notEmpty.validator]),
        ("d", .sub { fields := [("e", .leaf [])], extras := some [Rule.ignore.validator] })],
      extras := some [Rule.ignore.validator] })]
  extras := some [Rule.ignore.validator]
  junk := some [Rule.ignore.validator]

/-- A record with undeclared fields on all levels, among them lists of objects and an empty list. -/
def smuggled : Record where
  entries := [
    ("b", .arr [.obj [("c", .int 1), ("d", .arr [.obj [("e", .int 2), ("x", .int 3)]])],
      .obj [("d", .arr []), ("x", .arr [.obj [("e", .int 4)]]), ("y", .int 5)]]),
    ("x", .arr [.obj [("c", .int 6)]]), ("y", .arr []), ("z", .int 7)]
  sorted := by decide

/-- What is smuggled into the record is left out at every depth, but for an empty list at the top. -/
theorem validate_closed_smuggled :
    guarded.Distinct ∧ guarded.Closed ∧ ∃ o, validate smuggled guarded {} = .ok o ∧
      o.data.entries = [("a", .int 0),
        ("b", .arr [.obj [("c", .int 1), ("d", .arr [.obj [("e", .int 2)]])]]), ("y", .arr [])] ∧
      (∀ name v, o.data.get? name = some v →
        name ∈ guarded.fieldNames ∨ smuggled.get? name = some (.arr [])) ∧
      ∀ name inner v, guarded.child? name = some inner → o.data.get? name = some v →
        ∃ items, v = .arr items ∧ ∀ item ∈ items, ∃ fields, item = .obj fields ∧
          inner.Conforms fields := by
  have hs : guarded.Distinct := by decide
  have hnone : Chain.OfRules Rule.StaysPut [] := ⟨[], rfl, nofun⟩
  have hone : ∀ rule : Rule, rule.StaysPut → Chain.OfRules Rule.StaysPut [rule.validator] :=
    fun rule hrule => ⟨[rule], rfl, fun rule' hrule' => List.mem_singleton.1 hrule' ▸ hrule⟩
  have hclosed : guarded.Closed := by
    refine ⟨.of_fields ⟨rfl, rfl, rfl, fun name chain hfield => ?_⟩ fun name inner hfield => ?_, rfl⟩
    · obtain ⟨-, rfl⟩ : name = "a" ∧ chain = _ := by simpa [guarded] using hfield
      exact hone (.default (.int 0)) ⟨nofun, nofun⟩
    obtain ⟨-, rfl⟩ : name = "b" ∧ inner = _ := by simpa [guarded] using hfield
    refine .of_fields ⟨rfl, rfl, rfl, fun name chain hfield => ?_⟩ fun name inner hfield => ?_
    · obtain ⟨-, rfl⟩ : name = "c" ∧ chain = _ := by simpa using hfield
      exact hone .notEmpty ⟨nofun, nofun⟩
    obtain ⟨-, rfl⟩ : name = "d" ∧ inner = _ := by simpa using hfield
    refine .of_fields ⟨rfl, rfl, rfl, fun name chain hfield => ?_⟩ (by simp)
    obtain ⟨-, rfl⟩ : name = "e" ∧ chain = _ := by simpa using hfield
    exact hnone
  obtain ⟨o, ho⟩ : ∃ o, validate smuggled guarded {} = .ok o := ⟨_, rfl⟩
  obtain ⟨hnames, hlists⟩ := validate_closed hs hclosed ho
  refine ⟨hs, hclosed, o, ho, ?_, hnames, hlists⟩
  cases ho
  rfl

end FlatRecord
