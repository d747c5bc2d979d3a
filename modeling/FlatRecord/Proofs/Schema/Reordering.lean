import FlatRecord.Proofs.Schema.Templates

/-!
# The order of declarations

Two schemas are reorderings of each other when they declare the same fields in another order, at any of
their levels (`Schema.Reordered`). Their templates list the same chains, in whatever order
(`Reordered.mem_template_iff`). An expansion asks a template only whether it has some key, and finds the
chains under keys that have one at most, so for every record the accepted objects, the chains and the places
of the entries are the same (`Reordered.accepted_eq`, `Reordered.full_eq`, `Reordered.route_eq`), and the
record is filled up alike or refused for the same entry (`Reordered.complete_eq`).
-/

namespace FlatRecord

namespace Schema

/-- One schema declares the same as another, with the fields of either of them or of schemas under them in
another order. -/
inductive Reordered : Schema → Schema → Prop where
  /-- The fields of the schema itself are in another order. -/
  | fields {s : Schema} {fields : List (String × Node)} (h : s.fields.Perm fields) :
    Reordered s { s with fields }
  /-- The schema under a field has its fields in another order. -/
  | inside {s inner inner' : Schema} {before after : List (String × Node)} {name : String}
    (h : s.fields = before ++ (name, .sub inner) :: after) (hinner : Reordered inner inner') :
    Reordered s { s with fields := before ++ (name, .sub inner') :: after }
  /-- One reordering follows the other. -/
  | trans {s s' s'' : Schema} (h : Reordered s s') (h' : Reordered s' s'') : Reordered s s''

namespace Reordered

variable {s s' : Schema} {key : Key} {e : Key × Chain}

/-- The chains in the slots stay. -/
theorem control?_eq (h : s.Reordered s') : s'.control? = s.control? := by
  induction h with
  | fields => rfl
  | inside => rfl
  | trans _ _ ih ih' => exact ih'.trans ih

/-- The leaf fields are the same. -/
theorem mem_leaf_iff (h : s.Reordered s') {name : String} {chain : Chain} :
    (name, Node.leaf chain) ∈ s'.fields ↔ (name, Node.leaf chain) ∈ s.fields := by
  induction h with
  | fields h => exact h.mem_iff.symm
  | inside h => simp [h]
  | trans _ _ ih ih' => exact ih'.trans ih

/-- The names of the fields are the same, in whatever order. -/
theorem fieldNames_perm (h : s.Reordered s') : s'.fieldNames.Perm s.fieldNames := by
  induction h with
  | fields h => exact (h.map _).symm
  | inside h =>
    unfold fieldNames
    rw [h, List.map_append, List.map_append]
    exact .refl _
  | trans _ _ ih ih' => exact ih'.trans ih

/-- The fields still have different names. -/
theorem distinct (h : s.Reordered s') (hs : s.Distinct) : s'.Distinct := by
  induction h with
  | fields h =>
    obtain ⟨hnames, hinner⟩ := distinct_iff.1 hs
    refine distinct_iff.2 ⟨(h.map _).nodup hnames, fun name inner hmem => ?_⟩
    exact hinner name inner (h.mem_iff.2 hmem)
  | @inside s inner inner' before after name h hreordered ih =>
    obtain ⟨hnames, hinner⟩ := distinct_iff.1 hs
    refine distinct_iff.2 ⟨(inside h hreordered).fieldNames_perm.symm.nodup hnames, ?_⟩
    rw [h] at hinner
    -- The schema under a field is the reordered one or one of the others, which are as they were.
    intro name' schema hmem
    rcases List.mem_append.1 hmem with hmem | hmem
    · exact hinner name' schema (List.mem_append_left _ hmem)
    · rcases List.mem_cons.1 hmem with heq | hmem
      · cases heq
        exact ih (hinner name inner (List.mem_append_right _ List.mem_cons_self))
      · exact hinner name' schema (List.mem_append_right _ (List.mem_cons_of_mem _ hmem))
  | trans _ _ ih ih' => exact ih' (ih hs)

/-- A node has the same chains. -/
theorem mem_ownEntries_iff (h : s.Reordered s') : e ∈ s'.ownEntries key ↔ e ∈ s.ownEntries key := by
  obtain ⟨k, chain⟩ := e
  simp only [Schema.mem_ownEntries_iff, h.mem_leaf_iff, h.control?_eq]

/-- What some schema under a field has, the schema under a given field has or that of another field. -/
theorem exists_mem_fields_iff {P : String → Schema → Prop} {before after : List (String × Node)}
    {name : String} {inner : Schema} :
    (∃ name' inner', (name', Node.sub inner') ∈ before ++ (name, .sub inner) :: after ∧ P name' inner') ↔
      P name inner ∨
        ∃ name' inner', (name', Node.sub inner') ∈ before ++ after ∧ P name' inner' := by
  constructor
  · rintro ⟨name', inner', hmem, hP⟩
    rw [List.mem_append, List.mem_cons, Prod.mk.injEq, Node.sub.injEq] at hmem
    rcases hmem with hmem | ⟨rfl, rfl⟩ | hmem
    · exact .inr ⟨name', inner', List.mem_append_left _ hmem, hP⟩
    · exact .inl hP
    · exact .inr ⟨name', inner', List.mem_append_right _ hmem, hP⟩
  · rintro (hP | ⟨name', inner', hmem, hP⟩)
    · exact ⟨name, inner, List.mem_append_right _ List.mem_cons_self, hP⟩
    · refine ⟨name', inner', ?_, hP⟩
      rcases List.mem_append.1 hmem with hmem | hmem
      · exact List.mem_append_left _ hmem
      · exact List.mem_append_right _ (List.mem_cons_of_mem _ hmem)

/-- The chains in the schema are the same. -/
theorem mem_entriesUnder_iff (h : s.Reordered s') :
    e ∈ s'.entriesUnder key ↔ e ∈ s.entriesUnder key := by
  induction h generalizing key with
  | fields h =>
    rw [Schema.mem_entriesUnder_iff, Schema.mem_entriesUnder_iff, (fields h).mem_ownEntries_iff]
    simp only [h.mem_iff]
  | inside h hinner ih =>
    rw [Schema.mem_entriesUnder_iff, Schema.mem_entriesUnder_iff, (inside h hinner).mem_ownEntries_iff, h,
      exists_mem_fields_iff, exists_mem_fields_iff, ih]
  | trans _ _ ih ih' => exact ih'.trans ih

/-- The templates list the same chains, in whatever order. -/
theorem mem_template_iff (h : s.Reordered s') : e ∈ s'.template ↔ e ∈ s.template := by
  obtain ⟨k, chain⟩ := e
  have hjunk : s'.junk = s.junk := congrFun h.control?_eq .junk
  unfold template
  rw [List.mem_append, List.mem_append, h.mem_entriesUnder_iff, mem_junkEntries_iff,
    mem_junkEntries_iff, hjunk]

/-- The templates agree on whether they have a chain of some kind. -/
theorem any_template_eq (h : s.Reordered s') (p : Key × Chain → Bool) :
    s'.template.any p = s.template.any p := by
  rw [Bool.eq_iff_iff, List.any_eq_true, List.any_eq_true]
  simp only [h.mem_template_iff]

end Reordered

end Schema

/-! ## Expansions -/

namespace Expansion

/-- How a record is filled up depends on where its entries belong and on the keys with a chain. -/
theorem complete_congr {e e' : Expansion} (hfull : e.full = e'.full) (hroute : e.route = e'.route) :
    e.complete = e'.complete := by
  funext flat
  unfold complete routeAll routeEntry leafKeys
  rw [hfull, hroute]

end Expansion

namespace Schema.Reordered

variable {s s' : Schema} {r : Record} {f : FlatValues}

/-- The same objects are accepted. -/
theorem accepted_eq (h : s.Reordered s') (f : FlatValues) :
    (Expansion.of s' f).accepted = (Expansion.of s f).accepted := by
  have hstep : acceptParent s'.template = acceptParent s.template := by
    funext accepted key
    unfold acceptParent Template.hasNode
    rw [h.any_template_eq]
  show acceptedNodes s'.template f.keys = acceptedNodes s.template f.keys
  rw [acceptedNodes, hstep, acceptedNodes]

/-- The chains under the keys of a record are the same. -/
theorem full_eq (h : s.Reordered s') (hs : s.Distinct) (hr : r.flatten = .ok f) :
    (Expansion.of s' f).full = (Expansion.of s f).full := by
  -- Where the chains of the nodes stand is told by the accepted objects and the template.
  refine SortedMap.ext_get? fun k => Option.ext fun chain => ?_
  rw [Expansion.get?_full_iff_template (h.distinct hs) hr, Expansion.get?_full_iff_template hs hr,
    h.accepted_eq, (h.distinct hs).get?_template_iff, hs.get?_template_iff, h.mem_template_iff]

/-- The entries of a record belong where they belonged. -/
theorem route_eq (h : s.Reordered s') (hs : s.Distinct) (hr : r.flatten = .ok f) :
    (Expansion.of s' f).route = (Expansion.of s f).route := by
  funext key value
  have hleads : (Expansion.of s' f).template.leadsOn key.shape =
      (Expansion.of s f).template.leadsOn key.shape :=
    h.any_template_eq _
  unfold Expansion.route
  rw [h.full_eq hs hr, hleads, h.accepted_eq]

/-- A record is filled up alike, or refused for the same entry. -/
theorem complete_eq (h : s.Reordered s') (hs : s.Distinct) (hr : r.flatten = .ok f) :
    (Expansion.of s' f).complete f = (Expansion.of s f).complete f :=
  congrFun (Expansion.complete_congr (h.full_eq hs hr) (h.route_eq hs hr)) f

end Schema.Reordered

end FlatRecord
