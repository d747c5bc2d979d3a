import FlatRecord.Proofs.Store.Views
import FlatRecord.Rule

/-!
# Names that are taken

A row *stands in the way* of a record if it has the name of the record, is not deleted and is not the row
that the record describes. `Rule.nameUnique` asks for one row with the name, the first one, and reports the
name if this row stands in the way (`Rule.nameUnique_exact`). So what it reports is taken, but a name that
is taken may go through: the own row of the record, or a deleted one, can hide the row behind it
(`Rule.nameUnique_misses_rival`).
-/

namespace FlatRecord

/-- The row has the name. -/
def Row.IsNamed (row : Row) (name : String) : Prop := row.get? "name" = some (.text name)

/-- The row is neither deleted nor the row with the given id. Without an id it may be any row. -/
def Row.IsOther (row : Row) (own : Option String) : Prop :=
  row.state? ≠ some "deleted" ∧ ∀ id, own = some id → row.id? ≠ some id

/-- A column holds a text when that is its cell. -/
theorem Row.holds_text_iff {row : Row} {column text : String} :
    row.holds column (.text text) = true ↔ row.get? column = some (.text text) := by
  unfold holds
  cases row.get? column with
  | none => exact ⟨nofun, nofun⟩
  | some cell => cases cell <;> simp [Cell.same]

/-- The filter of the rule is for rows with the name. -/
theorem Row.isMatch_name_iff {row : Row} {name : String} :
    row.isMatch [("name", .text name)] = true ↔ row.IsNamed name := by
  rw [Row.isMatch_iff, List.forall_mem_singleton]
  exact Row.holds_text_iff

/-- A rival is a row that is neither deleted nor the record's own. -/
theorem Lookup.isRival_iff {own : Option String} {row : Row} :
    Lookup.isRival own row = true ↔ row.IsOther own := by
  unfold Lookup.isRival Row.IsOther
  cases own with
  | none => simp
  | some id => simp [and_comm]

namespace Store

variable {store : Store} {kind name : String} {own : Option String}

/-- A row of the kind stands in the way of a record with the name and the own id. -/
def NameTaken (store : Store) (kind name : String) (own : Option String) : Prop :=
  ∃ row ∈ store.rows kind, row.IsNamed name ∧ row.IsOther own

/-- The first row of the kind that has the name stands in the way. -/
def FirstTakes (store : Store) (kind name : String) (own : Option String) : Prop :=
  ∃ before row after, store.rows kind = before ++ row :: after ∧
    (∀ other ∈ before, ¬ other.IsNamed name) ∧ row.IsNamed name ∧ row.IsOther own

/-- The first row with a name is the one that a search for the name finds. -/
theorem firstTakes_iff : store.FirstTakes kind name own ↔
    (store.findFirst? kind [("name", .text name)]).any (Lookup.isRival own) = true := by
  unfold FirstTakes findFirst?
  simp only [Option.any_eq_true, List.find?_eq_some_iff_append, Bool.not_eq_true',
    ← Bool.not_eq_true, Row.isMatch_name_iff, Lookup.isRival_iff]
  constructor
  · rintro ⟨before, row, after, hrows, hbefore, hnamed, hother⟩
    exact ⟨row, ⟨hnamed, before, after, hrows, hbefore⟩, hother⟩
  · rintro ⟨row, ⟨hnamed, before, after, hrows, hbefore⟩, hother⟩
    exact ⟨before, row, after, hrows, hbefore, hnamed, hother⟩

/-- Whether the first row with a name stands in the way can be computed. -/
instance : Decidable (store.FirstTakes kind name own) := decidable_of_iff _ firstTakes_iff.symm

/-- If the first row with the name stands in the way, then the name is taken. -/
theorem FirstTakes.nameTaken (h : store.FirstTakes kind name own) : store.NameTaken kind name own := by
  obtain ⟨before, row, after, hrows, -, htakes⟩ := h
  refine ⟨row, ?_, htakes⟩
  rw [hrows]
  exact List.mem_append_right _ List.mem_cons_self

/-- If one row at most has the name, it is the first one. -/
theorem NameTaken.firstTakes (h : store.NameTaken kind name own)
    (hone : ∀ row ∈ store.rows kind, ∀ other ∈ store.rows kind,
      row.IsNamed name → other.IsNamed name → row = other) : store.FirstTakes kind name own := by
  obtain ⟨row, hrow, hnamed, hother⟩ := h
  rw [firstTakes_iff, Option.any_eq_true]
  unfold findFirst?
  cases hfound : (store.rows kind).find? (·.isMatch [("name", .text name)]) with
  | none => exact absurd (Row.isMatch_name_iff.2 hnamed) (List.find?_eq_none.1 hfound row hrow)
  | some first =>
    have hmatch : first.isMatch [("name", .text name)] = true := @List.find?_some _ _ first _ hfound
    -- The search finds the first row with the name, and that can only be the rival.
    have hsame : first = row := hone first (List.mem_of_find?_eq_some hfound) row hrow
      (Row.isMatch_name_iff.1 hmatch) hnamed
    rw [hsame]
    exact ⟨row, rfl, Lookup.isRival_iff.2 hother⟩

end Store

namespace Rule

variable {kind name : String} {key : Key} {w : Work} {store : Store}

/-- With a store at hand the rule looks at the first row with the name. -/
theorem apply_nameUnique (hsession : w.context.session = some (.memory store))
    (hname : (w.datum key).str? = some name) : (nameUnique kind).validator.apply key w =
      if store.FirstTakes kind name (Lookup.ownId? kind key w)
      then (w.report key Complaint.nameTaken.message, false) else (w, false) := by
  -- The search is made in the store at hand, and does not fail.
  have hsearch : (w.context.requireSession.bind (·.findFirst? kind [("name", .text name)])) =
      .ok (store.findFirst? kind [("name", .text name)]) := by
    unfold Context.requireSession
    rw [hsession]
    rfl
  show Validator.settle key (Lookup.nameUnique kind key w).1 (Lookup.nameUnique kind key w).2 = _
  unfold Lookup.nameUnique
  simp only [hname, hsearch, Store.firstTakes_iff]
  cases store.findFirst? kind [("name", .text name)] with
  | none => rfl
  | some row =>
    dsimp only [Option.any_some]
    by_cases hrival : Lookup.isRival (Lookup.ownId? kind key w) row = true
    · simp only [if_pos hrival]
      rfl
    · simp only [if_neg hrival]
      rfl

/-- A name is reported, and nothing else is changed, just when the first row with the name stands in the
way. So a reported name is taken; and if one row at most has the name, it is reported just when it is
taken. -/
theorem nameUnique_exact (hsession : w.context.session = some (.memory store))
    (hname : (w.datum key).str? = some name) :
    (nameUnique kind).validator.apply key w =
      (if store.FirstTakes kind name (Lookup.ownId? kind key w)
      then (w.report key Complaint.nameTaken.message, false) else (w, false)) ∧
    (store.FirstTakes kind name (Lookup.ownId? kind key w) →
      store.NameTaken kind name (Lookup.ownId? kind key w)) ∧
    ((∀ row ∈ store.rows kind, ∀ other ∈ store.rows kind,
        row.IsNamed name → other.IsNamed name → row = other) →
      store.NameTaken kind name (Lookup.ownId? kind key w) →
      store.FirstTakes kind name (Lookup.ownId? kind key w)) :=
  ⟨apply_nameUnique hsession hname, fun h => h.nameTaken, fun hone h => h.firstTakes hone⟩

/-- A store with packages, each with an id, a name and a state. -/
def packages (rows : List (String × String × String)) : Store :=
  (rows.map fun row => Call.seed (package row.1 row.2.1 row.2.2)).foldl Store.after {}
where
  /-- A package. -/
  package (id name state : String) : Row :=
    { kind := "package"
      cells := (∅ : Listing String Cell).putMany
        [("id", .text id), ("name", .text name), ("state", .text state)]
      modified := false }

/-- The store of packages is reached by storing them. -/
theorem reachable_packages (rows : List (String × String × String)) : (packages rows).Reachable :=
  ⟨_, rfl⟩

/-- A record with some texts, under validation with a store. -/
def described (store : Store) (fields : List (String × String)) : Work where
  data := .ofList (fields.map fun f => (Key.root.field f.1, .ofString f.2))
  messages := ∅
  context := { session := some (.memory store) }

/-- A package with an id that takes the name of another one, which is neither deleted nor the first of
the packages. -/
def renamedStore : Store :=
  packages [("p1", "census", "active"), ("p2", "health", "deleted"), ("p3", "roads", "draft")]

/-- Its record. -/
def renamed : Work := described renamedStore [("id", "p1"), ("name", "roads")]

/-- The key of the name of a record. -/
def nameKey : Key := Key.root.field "name"

/-- The new name of the package is that of another one, which is reported. -/
theorem nameUnique_exact_renamed :
    renamed.context.session = some (.memory renamedStore) ∧
    (renamed.datum nameKey).str? = some "roads" ∧
    ((nameUnique "package").validator.apply nameKey renamed).1.messages.get? nameKey =
      some ["That name is already in use."] ∧
    (nameUnique "package").validator.apply nameKey renamed =
      (if renamedStore.FirstTakes "package" "roads" (Lookup.ownId? "package" nameKey renamed)
      then (renamed.report nameKey Complaint.nameTaken.message, false) else (renamed, false)) ∧
    (renamedStore.FirstTakes "package" "roads" (Lookup.ownId? "package" nameKey renamed) →
      renamedStore.NameTaken "package" "roads" (Lookup.ownId? "package" nameKey renamed)) ∧
    ((∀ row ∈ renamedStore.rows "package", ∀ other ∈ renamedStore.rows "package",
        row.IsNamed "roads" → other.IsNamed "roads" → row = other) →
      renamedStore.NameTaken "package" "roads" (Lookup.ownId? "package" nameKey renamed) →
      renamedStore.FirstTakes "package" "roads" (Lookup.ownId? "package" nameKey renamed)) :=
  ⟨rfl, rfl, rfl, nameUnique_exact rfl rfl⟩

/-- A record goes through with a name that is taken by a package in the store. -/
structure Overlooked (store : Store) (fields : List (String × String)) (name : String) : Prop where
  /-- Calls lead to the store. -/
  reachable : store.Reachable
  /-- The record has the name. -/
  named : ((described store fields).datum nameKey).str? = some name
  /-- Another package has it. -/
  taken : store.NameTaken "package" name (Lookup.ownId? "package" nameKey (described store fields))
  /-- Nothing is reported. -/
  unreported : (nameUnique "package").validator.apply nameKey (described store fields) =
    (described store fields, false)

/-- A name that is taken goes through when the own row of the record comes first, or a deleted one. -/
theorem nameUnique_misses_rival :
    Overlooked (packages [("p1", "census", "active"), ("p2", "census", "active")])
      [("id", "p1"), ("name", "census")] "census" ∧
    Overlooked (packages [("p1", "census", "deleted"), ("p2", "census", "active")])
      [("name", "census")] "census" := by
  constructor
  · -- The row of the record itself has the name, and comes first.
    exact {
      reachable := reachable_packages _
      named := rfl
      taken := ⟨_, List.mem_cons_of_mem _ List.mem_cons_self, rfl, by decide, by rintro id ⟨⟩; decide⟩
      unreported := rfl }
  · -- A deleted row has the name, and comes first.
    exact {
      reachable := reachable_packages _
      named := rfl
      taken := ⟨_, List.mem_cons_of_mem _ List.mem_cons_self, rfl, by decide, nofun⟩
      unreported := rfl }

end Rule

end FlatRecord
