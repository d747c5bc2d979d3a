import FlatRecord.Proofs.Listing
import FlatRecord.Proofs.SortedMap
import FlatRecord.Store.Memory

/-!
# Look-ups in a store

What each call on a store does to the rows that are found in it. Adding a row changes the look-up under
its kind and id and no other (`Store.get?_add`); in the list of visible rows it takes the place of the
row with its id, or stands in front of all committed rows (`Store.exists_rows_add`), so a filter that
fits it finds it or what it found before (`Store.findFirst?_add_of_isMatch`).

A store is *reachable* when calls on the empty store lead to it. In a reachable store every row is filed
under its kind and its id and is not marked as changed (`Store.Reachable.filed`).
-/

namespace FlatRecord

variable {kind id : String} {row : Row}

/-- Marking a row clean does not change its id. -/
@[simp] theorem Row.id?_clean (row : Row) : row.clean.id? = row.id? := rfl

/-- Marking a row clean does not change its kind. -/
@[simp] theorem Row.kind_clean (row : Row) : row.clean.kind = row.kind := rfl

/-- A row that is not modified is clean already. -/
theorem Row.clean_of_not_modified (h : row.modified = false) : row.clean = row := by
  rw [clean, ← h]

/-! ## Layers -/

namespace Layer

variable {l : Layer}

/-- The row of a kind that is filed under an id. -/
def row? (l : Layer) (kind id : String) : Option Row := (l.table kind).get? id

/-- Replacing the table of a kind does not change those of other kinds. -/
theorem table_insert (l : Layer) (kind kind' : String) (t : Table) :
    Layer.table (l.insert kind t) kind' = if kind' = kind then t else l.table kind' := by
  rw [table, SortedMap.get?_insert]
  split <;> rfl

/-- Filing a row changes the table of its kind only. -/
theorem table_file (l : Layer) (id : String) (row : Row) (kind : String) :
    (l.file id row).table kind =
      if kind = row.kind then (l.table kind).put id row else l.table kind := by
  rw [file, table_insert]
  split
  · rename_i hkind
    rw [hkind]
  · rfl

/-- A filed row is found under its kind and the id. -/
theorem row?_file (l : Layer) (id : String) (row : Row) (kind' id' : String) :
    (l.file id row).row? kind' id' =
      if kind' = row.kind ∧ id' = id then some row else l.row? kind' id' := by
  rw [row?, table_file]
  by_cases hkind : kind' = row.kind
  · rw [if_pos hkind, Listing.get?_put]
    simp only [hkind, true_and]
    rfl
  · rw [if_neg hkind, if_neg fun h => hkind h.1]
    rfl

/-- Filing a row where it is filed already changes nothing. -/
theorem file_file (l : Layer) (id : String) (row : Row) :
    (l.file id row).file id row = l.file id row := by
  refine SortedMap.ext_get? fun kind => ?_
  rw [file, SortedMap.get?_insert]
  by_cases hkind : kind = row.kind
  · rw [if_pos hkind, table_file, if_pos rfl, Listing.put_put, file, SortedMap.get?_insert,
      if_pos hkind]
  · rw [if_neg hkind]

/-- Every row is filed under its kind and its id, or the empty id if it has none, and is not marked as
changed. -/
def Filed (l : Layer) : Prop :=
  ∀ kind id row, l.row? kind id = some row →
    row.kind = kind ∧ row.id?.getD "" = id ∧ row.modified = false

/-- The empty layer is filed as it should be. -/
theorem Filed.empty : Layer.Filed ∅ := by
  intro kind id row h
  cases h

/-- Filing a clean row under its id keeps a layer filed as it should be. -/
theorem Filed.file (h : l.Filed) (hid : row.id?.getD "" = id) : (l.file id row.clean).Filed := by
  intro kind' id' row' hget
  rw [row?_file] at hget
  split at hget
  · rename_i heq
    cases hget
    exact ⟨heq.1.symm, hid.trans heq.2.symm, rfl⟩
  · exact h kind' id' row' hget

/-- Tables that are stored one after the other each go to the table of their kind. -/
theorem table_foldl {tables : List (String × Table)} (h : Ascending.Sorted tables) (l : Layer)
    (kind : String) :
    Layer.table (tables.foldl (fun l e => l.insert e.1 ((Layer.table l e.1).putMany e.2.entries)) l)
        kind =
      (l.table kind).putMany ((Ascending.get? kind tables).getD ∅).entries := by
  induction tables generalizing l with
  | nil => rfl
  | cons e rest ih =>
    obtain ⟨kind', t⟩ := e
    obtain ⟨hfirst, hrest⟩ := List.pairwise_cons.1 h
    rw [List.foldl_cons, ih hrest, table_insert, Ascending.get?]
    by_cases hkind : kind = kind'
    · -- No other table further on is of the same kind.
      subst hkind
      have hself : compare kind kind = .eq := Std.ReflCmp.compare_self
      rw [if_pos rfl, if_pos hself, Ascending.get?_eq_none_of_lt hfirst]
      rfl
    · have hne : compare kind kind' ≠ .eq := fun heq => hkind (Std.LawfulEqCmp.eq_of_compare heq)
      rw [if_neg hkind, if_neg hne]

end Layer

/-! ## Calls -/

/-- A call that changes a store. -/
inductive Call where
  /-- Puts a row into the committed layer. -/
  | seed (row : Row)
  /-- Stages a row. -/
  | add (row : Row)
  /-- Moves the staged rows into the committed layer. -/
  | commit
  /-- Drops the staged rows. -/
  | rollback

namespace Store

variable {s s' : Store}

/-- The store after a call. Adding a row without an id changes nothing. -/
def after (s : Store) : Call → Store
  | .seed row => s.seed row
  | .add row => match s.add row with
    | .ok s' => s'
    | .error _ => s
  | .commit => s.commit
  | .rollback => s.rollback

/-- Some calls, one after the other, lead from the empty store to the store. -/
def Reachable (s : Store) : Prop := ∃ calls : List Call, calls.foldl after {} = s

/-- A row with an id is added by filing it, clean, in the staged layer. -/
theorem add_eq_ok_iff : s.add row = .ok s' ↔
    ∃ id, row.id? = some id ∧ s' = { s with staged := s.staged.file id row.clean } := by
  unfold add
  cases row.id? with
  | none => exact ⟨nofun, fun ⟨_, h, _⟩ => by cases h⟩
  | some id =>
    constructor
    · intro h
      exact ⟨id, rfl, (Except.ok.inj h).symm⟩
    · rintro ⟨id', heq, rfl⟩
      cases heq
      rfl

/-- A row without a text id is refused. -/
theorem add_of_id?_eq_none (hid : row.id? = none) (s : Store) :
    s.add row = .error (.backend (row.kind ++ " row has no id")) := by
  rw [add, hid]

/-- Adding a row with an id files it in the staged layer. -/
theorem after_add_of_id? (hid : row.id? = some id) :
    s.after (.add row) = { s with staged := s.staged.file id row.clean } := by
  simp only [after, add, hid]

/-- Adding a row without an id changes nothing. -/
theorem after_add_of_id?_eq_none (hid : row.id? = none) : s.after (.add row) = s := by
  simp only [after, add_of_id?_eq_none hid]

/-- A commit moves the staged rows of a kind into its committed table. -/
theorem table_commit (s : Store) (kind : String) : s.commit.committed.table kind =
    (s.committed.table kind).putMany (s.staged.table kind).entries :=
  Layer.table_foldl s.staged.sorted s.committed kind

/-- A look-up goes to the staged rows first. -/
theorem get?_eq_or (s : Store) (kind id : String) :
    s.get? kind id = (s.staged.row? kind id).or (s.committed.row? kind id) := by
  unfold get? Layer.row?
  cases (s.staged.table kind).get? id <;> rfl

/-- An added row is found under its kind and id; all other look-ups are as before. -/
theorem get?_add (h : s.add row = .ok s') (hid : row.id? = some id) (kind' id' : String) :
    s'.get? kind' id' =
      if kind' = row.kind ∧ id' = id then some row.clean else s.get? kind' id' := by
  obtain ⟨id₁, hid₁, rfl⟩ := add_eq_ok_iff.1 h
  cases hid.symm.trans hid₁
  rw [get?_eq_or, get?_eq_or, Layer.row?_file, Row.kind_clean]
  by_cases hplace : kind' = row.kind ∧ id' = id
  · rw [if_pos hplace, if_pos hplace]
    rfl
  · rw [if_neg hplace, if_neg hplace]

/-- A row that is added where it is found already changes no look-up. -/
theorem get?_add_of_get? (h : s.add row = .ok s') (hid : row.id? = some id)
    (hclean : row.modified = false) (hget : s.get? row.kind id = some row) (kind' id' : String) :
    s'.get? kind' id' = s.get? kind' id' := by
  rw [get?_add h hid, Row.clean_of_not_modified hclean]
  split
  · rename_i hplace
    rw [hplace.1, hplace.2, hget]
  · rfl

/-- A row that is added to where it is already staged changes nothing. -/
theorem add_again (h : s.add row = .ok s') {again : Row} (hclean : again.clean = row.clean) :
    s'.add again = .ok s' := by
  obtain ⟨id, hid, rfl⟩ := add_eq_ok_iff.1 h
  have hid' : again.id? = some id := by
    rw [← Row.id?_clean, hclean, Row.id?_clean, hid]
  refine add_eq_ok_iff.2 ⟨id, hid', ?_⟩
  rw [hclean, Layer.file_file]

/-- In the list of visible rows an added row comes after some that were there, and after it come some of
the others. -/
theorem exists_rows_add (h : s.add row = .ok s') :
    ∃ before after after', s.rows row.kind = before ++ after ∧
      s'.rows row.kind = before ++ row.clean :: after' ∧ ∀ r ∈ after', r ∈ after := by
  obtain ⟨id, hid, rfl⟩ := add_eq_ok_iff.1 h
  have htable : (s.staged.file id row.clean).table row.kind =
      (s.staged.table row.kind).put id row.clean := by
    rw [Layer.table_file, Row.kind_clean, if_pos rfl]
  unfold rows
  dsimp only
  rw [htable]
  generalize s.staged.table row.kind = staged
  generalize s.committed.table row.kind = committed
  -- A staged row stays in front of the committed row with its id, so these get no more.
  have hcommitted : ∀ r ∈ (committed.entries.filter
      fun e => !(staged.put id row.clean).contains e.1).map (·.2),
      r ∈ (committed.entries.filter fun e => !staged.contains e.1).map (·.2) := by
    intro r hr
    obtain ⟨e, he, rfl⟩ := List.mem_map.1 hr
    obtain ⟨hmem, hfree⟩ := List.mem_filter.1 he
    refine List.mem_map.2 ⟨e, List.mem_filter.2 ⟨hmem, ?_⟩, rfl⟩
    rw [Bool.not_eq_true', Listing.contains_eq_false_iff] at hfree ⊢
    rw [Listing.get?_put] at hfree
    split at hfree
    · cases hfree
    · exact hfree
  obtain ⟨before, after, after', hold, hnew, hsub⟩ := staged.exists_values_put id row.clean
  refine ⟨before, after ++ _, after' ++ _, by rw [hold, List.append_assoc],
    by rw [hnew, List.append_assoc, List.cons_append], fun r hr => ?_⟩
  rw [List.mem_append] at hr ⊢
  exact hr.imp (hsub r) (hcommitted r)

/-- When a row that a filter fits is added, the filter finds it, or what it found before. -/
theorem findFirst?_add_of_isMatch {filter : List (String × Cell)} (h : s.add row = .ok s')
    (hmatch : row.isMatch filter = true) :
    s'.findFirst? row.kind filter = some row.clean ∨
      ∃ a, s.findFirst? row.kind filter = some a ∧ s'.findFirst? row.kind filter = some a := by
  obtain ⟨before, after, after', hold, hnew, -⟩ := exists_rows_add h
  unfold findFirst?
  rw [hold, hnew, List.find?_append, List.find?_append]
  cases before.find? (·.isMatch filter) with
  | some a => exact .inr ⟨a, rfl, rfl⟩
  -- No row before the added one fits, and the added one does.
  | none =>
    have hclean : row.clean.isMatch filter = true := hmatch
    rw [Option.none_or, Option.none_or, List.find?_cons, hclean]
    exact .inl rfl

/-- When a row is added, a filter that found nothing finds this row or still nothing. -/
theorem findFirst?_add_of_eq_none {filter : List (String × Cell)} (h : s.add row = .ok s')
    (hnone : s.findFirst? row.kind filter = none) :
    s'.findFirst? row.kind filter = some row.clean ∨ s'.findFirst? row.kind filter = none := by
  obtain ⟨before, after, after', hold, hnew, hsub⟩ := exists_rows_add h
  unfold findFirst? at hnone ⊢
  rw [hold, List.find?_append, Option.or_eq_none_iff, List.find?_eq_none] at hnone
  -- The rows after it were there before, and none of them fits.
  have hrest : after'.find? (·.isMatch filter) = none :=
    List.find?_eq_none.2 fun r hr => List.find?_eq_none.1 hnone.2 r (hsub r hr)
  rw [hnew, List.find?_append, List.find?_eq_none.2 hnone.1, Option.none_or, List.find?_cons, hrest]
  split
  · exact .inl rfl
  · exact .inr rfl

/-! ### Reachable stores -/

/-- The rows of both layers are filed as they should be. -/
def Filed (s : Store) : Prop := s.committed.Filed ∧ s.staged.Filed

/-- The rows that are found in a store are filed as they should be. -/
theorem Filed.of_get? (h : s.Filed) (hget : s.get? kind id = some row) :
    row.kind = kind ∧ row.id?.getD "" = id ∧ row.modified = false := by
  rw [get?_eq_or, Option.or_eq_some_iff] at hget
  rcases hget with hget | ⟨-, hget⟩
  · exact h.2 kind id row hget
  · exact h.1 kind id row hget

/-- Each call keeps rows filed as they should be. -/
theorem Filed.after (h : s.Filed) (call : Call) : (s.after call).Filed := by
  cases call with
  | seed row => exact ⟨h.1.file rfl, h.2⟩
  | add row =>
    -- A row without an id is not added.
    cases hid : row.id? with
    | none =>
      rw [after_add_of_id?_eq_none hid]
      exact h
    | some id =>
      rw [after_add_of_id? hid]
      exact ⟨h.1, h.2.file (by rw [hid]; rfl)⟩
  | commit =>
    -- A committed row was staged or committed before.
    refine ⟨fun kind id row hget => ?_, .empty⟩
    have hget : (s.commit.committed.table kind).get? id = some row := hget
    rw [table_commit, Listing.get?_putMany, Option.or_eq_some_iff] at hget
    rcases hget with hget | ⟨-, hget⟩
    · exact h.2 kind id row hget
    · exact h.1 kind id row hget
  | rollback => exact ⟨h.1, .empty⟩

/-- In a reachable store rows are filed as they should be. -/
theorem Reachable.filed (h : s.Reachable) : s.Filed := by
  obtain ⟨calls, rfl⟩ := h
  exact foldl_induction (motive := fun _ s => Store.Filed s) ⟨.empty, .empty⟩
    fun _ call _ s _ hs => hs.after call

end Store

end FlatRecord
