import FlatRecord.Proofs.Schema.FullSchema

/-!
# The names of a schema

`Schema.AllNames` says something of every field name of a schema and of the schemas in it. The keys
of an expansion lead through declared names, so a property of all names is one of the fields in these
keys: when no field has the name of a slot, the keys are addresses (`isAddress_of_get?_full`).
-/

namespace FlatRecord

/-- The segments of an object lead through objects and lists in turn, back to an object. -/
theorem ItemPath.alternates_append {named : String → Prop} {path : ItemPath}
    (hnames : ∀ name ∈ path.names, named name) {rest : List Segment}
    (hrest : Alternates named .object rest) : Alternates named .object (segments path ++ rest) := by
  induction path with
  | nil => exact hrest
  | cons step path ih =>
    obtain ⟨hname, hnames⟩ := List.forall_mem_cons.1 hnames
    exact ⟨hname, nofun, trivial, nofun, ih hnames⟩

namespace Schema

variable {P : String → Prop} {s node : Schema}

mutual

/-- All field names of a schema and of the schemas in it have the property. -/
def AllNames (P : String → Prop) : Schema → Prop
  | ⟨fields, _, _, _, _⟩ => AllNamesFields P fields
termination_by structural s => s

/-- All field names in the description of a field have the property. -/
def AllNamesNode (P : String → Prop) : Node → Prop
  | .leaf _ => True
  | .sub schema => AllNames P schema
termination_by structural n => n

/-- The names of some fields have the property, and all names in their descriptions. -/
def AllNamesFields (P : String → Prop) : List (String × Node) → Prop
  | [] => True
  | (name, node) :: rest => P name ∧ AllNamesNode P node ∧ AllNamesFields P rest
termination_by structural l => l

end

/-- The names of some fields have a property if each of them does, with the names inside it. -/
theorem allNamesFields_iff {fields : List (String × Node)} :
    AllNamesFields P fields ↔ ∀ field ∈ fields, P field.1 ∧ AllNamesNode P field.2 := by
  induction fields with
  | nil => simp [AllNamesFields]
  | cons field rest ih => simp [AllNamesFields, ih, and_assoc]

/-- All names of a schema have a property if those of its fields do, with the names inside them. -/
theorem allNames_iff : s.AllNames P ↔ ∀ field ∈ s.fields, P field.1 ∧ AllNamesNode P field.2 := by
  rw [← allNamesFields_iff]
  cases s
  exact Iff.rfl

/-- The name of a declared schema has a property of all names, and so do the names in the schema. -/
theorem AllNames.child {name : String} (h : s.AllNames P) (hchild : s.child? name = some node) :
    P name ∧ node.AllNames P := by
  obtain ⟨n, hget, hn⟩ := Option.bind_eq_some_iff.1 hchild
  have hfield := allNames_iff.1 h _ (Listed.mem_of_get? hget)
  cases n with
  | leaf chain => cases hn
  | sub inner =>
    cases hn
    exact hfield

/-- The names that lead to a node have a property of all names, and so do the names in the node. -/
theorem AllNames.nested {names : List String} (h : s.AllNames P)
    (hnode : s.nested? names = some node) : (∀ name ∈ names, P name) ∧ node.AllNames P := by
  induction names generalizing s with
  | nil =>
    cases hnode
    exact ⟨nofun, h⟩
  | cons name names ih =>
    obtain ⟨inner, hchild, hnode⟩ := nested?_cons_eq_some_iff.1 hnode
    obtain ⟨hname, hinner⟩ := h.child hchild
    obtain ⟨hnames, hnames'⟩ := ih hinner hnode
    exact ⟨List.forall_mem_cons.2 ⟨hname, hnames⟩, hnames'⟩

end Schema

namespace Expansion

variable {s : Schema} {r : Record} {f : FlatValues} {key : Key} {chain : Chain}

/-- The key of a chain is that of a field or a slot of an accepted object. -/
theorem exists_path_of_get?_full (hs : s.Distinct) (h : r.flatten = .ok f)
    (hget : (Expansion.of s f).full.get? key = some chain) {P : String → Prop}
    (hnames : s.AllNames P) : ∃ (path : ItemPath) (last : Segment), key = path.key.push last ∧
      (∀ name ∈ path.names, P name) ∧ last.FitsIn P .object := by
  rcases (get?_full_iff hs h).1 hget with ⟨path, node, -, hnode, hmem⟩ | ⟨rfl, -⟩
  · obtain ⟨hpath, hnode⟩ := hnames.nested hnode
    rcases Schema.mem_ownEntries_iff.1 hmem with ⟨name, hfield, rfl⟩ | ⟨slot, -, -, rfl⟩
    · exact ⟨path, .field name, rfl, hpath, (Schema.allNames_iff.1 hnode _ hfield).1⟩
    · exact ⟨path, .control slot, rfl, hpath, trivial⟩
  · exact ⟨[], .control .junk, rfl, nofun, trivial⟩

/-- When no field has the name of a slot the keys of an expansion are addresses. -/
theorem isAddress_of_get?_full (hs : s.Distinct) (h : r.flatten = .ok f)
    (hnames : s.AllNames Control.Unused)
    (hget : (Expansion.of s f).full.get? key = some chain) : key.IsAddress := by
  obtain ⟨path, last, rfl, hpath, hlast⟩ := exists_path_of_get?_full hs h hget hnames
  refine ⟨List.append_ne_nil_of_right_ne_nil _ (List.cons_ne_nil _ _), ?_⟩
  exact ItemPath.alternates_append hpath ⟨hlast, fun _ => rfl, trivial⟩

/-- No key of an expansion is that of an item of a list. -/
theorem last?_ne_index_of_get?_full (hs : s.Distinct) (h : r.flatten = .ok f)
    {P : String → Prop} (hnames : s.AllNames P)
    (hget : (Expansion.of s f).full.get? key = some chain) (i : Nat) :
    key.last? ≠ some (.index i) := by
  obtain ⟨path, last, rfl, -, hlast⟩ := exists_path_of_get?_full hs h hget hnames
  intro heq
  rw [Key.last?_push, Option.some.injEq] at heq
  rw [heq] at hlast
  exact hlast

end Expansion

end FlatRecord
