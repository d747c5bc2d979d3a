import FlatRecord.Proofs.SortedMap
import FlatRecord.Proofs.Store.Filling

/-!
# Saving a record twice

A record that is saved a second time goes to the row that it made the first time, and nothing in the
store changes (`Kind.save_twice`). Two things carry this.

The second look-up leads to the row that was saved, or to the one the first look-up led to
(`Kind.target_again`). With an id in the record this is the row under that id
(`Kind.found?_add_of_idOf?`). Otherwise the saved row agrees with the record in the columns by which it
was found (`Kind.isMatch_filled`), so it is found by them, or by columns that are tried earlier, unless
the row of the first look-up still comes first in the scan (`Kind.found?_add_of_found?`).

Filling a row with a record a second time leaves it as it is (`Kind.filled_filled`), also when a pending
context stores a state and the record has another one.
-/

namespace FlatRecord

namespace Kind

variable {kind : Kind} {record : Record} {c : Context} {s s' : Store} {row start : Row}
  {column : String} {columns : List String} {filter : List (String × Cell)}

/-! ## Declared kinds -/

/-- A kind as it is declared, column by column. -/
inductive Declared : Kind → Prop where
  /-- A kind starts with the column `id`. -/
  | named (name : String) : Declared (Kind.named name)
  /-- Another column is declared. -/
  | column {k : Kind} (h : Declared k) (name : String) (type : ColumnType) :
    Declared (k.column name type)
  /-- A set of identifying columns is declared. -/
  | identifiedBy {k : Kind} (h : Declared k) (columns : List String) :
    Declared (k.identifiedBy columns)

/-- A declared kind has the column `id`, of whatever type. -/
theorem Declared.exists_id (h : kind.Declared) : ∃ type, kind.columns.get? idColumn = some type := by
  induction h with
  | named name => exact ⟨.text, rfl⟩
  | @column k h name type ih =>
    show ∃ found, (k.columns.put name type).get? idColumn = some found
    rw [Listing.get?_put]
    split
    · exact ⟨type, rfl⟩
    · exact ih
  | identifiedBy h columns ih => exact ih

/-! ## The cells of a record -/

/-- The stored cells are the same as themselves, since no column is for floating-point numbers. -/
theorem same_self_of_mem_cellsOf (hfloat : ∀ column, kind.columns.get? column ≠ some .float)
    (hnumeric : ∀ name value, record.get? name = some value → value.Numeric) :
    ∀ e ∈ kind.cellsOf record.entries, e.2.same e.2 = true := by
  intro e he
  obtain ⟨value, hvalue, hcell⟩ := mem_cellsOf_record.1 he
  obtain ⟨-, type, htype, hcell⟩ := cellOf?_eq_some_iff.1 hcell
  refine Cell.same_self_of_coerce? (hnumeric e.1 value hvalue) (fun h => ?_) hcell
  exact hfloat e.1 (h ▸ htype)

/-! ## Filling a row -/

/-- A row that is filled a second time with a record stays as it is. -/
theorem filled_filled (hself : ∀ e ∈ kind.cellsOf record.entries, e.2.same e.2 = true) (row : Row) :
    (kind.filled record c (kind.filled record c row).clean).clean =
      (kind.filled record c row).clean := by
  by_cases hpending : (c.pending && (row.setMany (kind.cellsOf record.entries)).modified) = true
  · -- The row got the state for pending rows, and all other cells are held.
    have hstate : (kind.filled record c row).get? stateColumn = some (.text (pendingState record)) := by
      obtain ⟨hpending, hmodified⟩ := Bool.and_eq_true_iff.1 hpending
      exact get?_state_filled hpending ((modified_markPending ..).trans hmodified)
    generalize hfirst : kind.filled record c row = first at hstate ⊢
    have hheld : ∀ e ∈ kind.cellsOf record.entries, e.1 ≠ stateColumn →
        first.clean.holds e.1 e.2 = true := by
      intro e he hne
      rw [← hfirst]
      exact holds_filled hself he (.inr hne) row
    have hput := Row.put_cells_setMany first.clean (.text (pendingState record)) hheld
    -- A second filling marks the row at most because of the state in the record, and puts the pending state
    -- back.
    cases hmodified : (first.clean.setMany (kind.cellsOf record.entries)).modified with
    | false =>
      rw [filled, Row.setMany_of_not_modified _ hmodified, markPending_of_not_modified rfl]
      rfl
    | true =>
      have hmark : (c.pending && (first.clean.setMany (kind.cellsOf record.entries)).modified) = true := by
        rw [hmodified, Bool.and_true]
        exact (Bool.and_eq_true_iff.1 hpending).1
      have hcells : (kind.filled record c first.clean).cells = first.cells := by
        rw [filled, markPending, if_pos hmark, Row.cells_set_text, hput]
        exact Listing.put_of_get? hstate
      unfold Row.clean at hcells ⊢
      rw [hcells, kind_filled]
  · -- The row is not marked, and holds all cells.
    have hfilled : kind.filled record c row = row.setMany (kind.cellsOf record.entries) := by
      rw [filled, markPending, if_neg hpending]
    have hheld : ∀ e ∈ kind.cellsOf record.entries,
        (kind.filled record c row).clean.holds e.1 e.2 = true := by
      intro e he
      rw [hfilled]
      exact Row.holds_setMany row (nodup_cellsOf kind record) hself e he
    generalize kind.filled record c row = first at hheld ⊢
    rw [filled, Row.setMany_of_holds hheld, markPending_of_not_modified rfl]
    rfl

/-! ## Looking for the row again -/

/-- Each cell of a filter is what the field of the record in its column becomes. -/
theorem exists_of_mem_filterOf? (h : kind.filterOf? record columns = some filter) {e : String × Cell}
    (he : e ∈ filter) : e.1 ∈ columns ∧ ∃ value type, record.get? e.1 = some value ∧
      kind.columns.get? e.1 = some type ∧ Cell.coerce? value type = some e.2 := by
  unfold filterOf? at h
  induction columns generalizing filter with
  | nil =>
    cases h
    cases he
  -- The cell is that of the first column or of one of the others.
  | cons column rest ih =>
    rw [List.mapM_cons] at h
    obtain ⟨first, hfirst, h⟩ := Option.bind_eq_some_iff.1 h
    obtain ⟨others, hothers, h⟩ := Option.bind_eq_some_iff.1 h
    cases h
    rcases List.mem_cons.1 he with rfl | he
    · obtain ⟨value, hvalue, hfirst⟩ := Option.bind_eq_some_iff.1 hfirst
      obtain ⟨type, htype, hfirst⟩ := Option.bind_eq_some_iff.1 hfirst
      obtain ⟨cell, hcell, hfirst⟩ := Option.bind_eq_some_iff.1 hfirst
      cases hfirst
      exact ⟨List.mem_cons_self, value, type, hvalue, htype, hcell⟩
    · exact (ih hothers he).imp_left (List.mem_cons_of_mem _)

/-- There is a filter when each column has a field that fits. -/
theorem exists_filterOf? (h : ∀ column ∈ columns, ∃ value type cell,
      record.get? column = some value ∧ kind.columns.get? column = some type ∧
      Cell.coerce? value type = some cell) :
    ∃ filter, kind.filterOf? record columns = some filter := by
  unfold filterOf?
  induction columns with
  | nil => exact ⟨[], rfl⟩
  | cons column rest ih =>
    obtain ⟨⟨value, type, cell, hvalue, htype, hcell⟩, hrest⟩ := List.forall_mem_cons.1 h
    obtain ⟨others, hothers⟩ := ih hrest
    rw [List.mapM_cons, hothers, hvalue, htype]
    dsimp only [bind, Option.bind]
    rw [hcell]
    exact ⟨(column, cell) :: others, rfl⟩

/-- A row that was filled with a record agrees with it in columns where the record has a list only if
the row agreed before. -/
theorem isMatch_filled (hself : ∀ e ∈ kind.cellsOf record.entries, e.2.same e.2 = true)
    (hstate : c.pending = false ∨ stateColumn ∉ columns)
    (hfilter : kind.filterOf? record columns = some filter)
    (hlists : ∀ e ∈ filter, ∀ items, record.get? e.1 = some (.arr items) →
      row.holds e.1 e.2 = true) :
    (kind.filled record c row).isMatch filter = true := by
  -- A cell of the filter is held if the record stores it, and otherwise was held before.
  refine List.all_eq_true.2 fun e he => ?_
  obtain ⟨hcolumn, value, type, hvalue, htype, hcell⟩ := exists_of_mem_filterOf? hfilter he
  have hstate : c.pending = false ∨ e.1 ≠ stateColumn :=
    hstate.imp_right fun h heq => h (heq ▸ hcolumn)
  by_cases hlist : ∃ items, value = .arr items
  · -- A list is not stored, so the column is as it was.
    obtain ⟨items, rfl⟩ := hlist
    have hnone : ∀ value, record.get? e.1 = some value → kind.cellOf? e.1 value = none := by
      intro value hvalue'
      cases hvalue.symm.trans hvalue'
      rfl
    have hheld := hlists e he items hvalue
    unfold Row.holds at hheld ⊢
    rwa [get?_filled_of_not_stored (hstate.imp_left fun h => by rw [h, Bool.false_and]) hnone]
  · -- Any other value is stored in the column, and so the row holds it.
    refine holds_filled hself (mem_cellsOf_record.2 ⟨value, hvalue, ?_⟩) hstate row
    exact cellOf?_eq_some_iff.2 ⟨fun items h => hlist ⟨items, h⟩, type, htype, hcell⟩

/-- What a list of look-ups found first, it finds after a change that leads each look-up which found
nothing to one row only, and each look-up which found the first row to that or the one row. -/
theorem findSome?_again {α β : Type} {f g : α → Option β} {l : List α} {a b : β}
    (hnone : ∀ x ∈ l, f x = none → g x = some b ∨ g x = none)
    (hsome : ∀ x ∈ l, f x = some a → g x = some b ∨ g x = some a) (h : l.findSome? f = some a) :
    l.findSome? g = some b ∨ l.findSome? g = some a := by
  obtain ⟨before, x, after, rfl, hx, hbefore⟩ := List.findSome?_eq_some_iff.1 h
  have hrest : (x :: after).findSome? g = some b ∨ (x :: after).findSome? g = some a := by
    rw [List.findSome?_cons]
    rcases hsome x (by simp) hx with h | h <;> rw [h]
    · exact .inl rfl
    · exact .inr rfl
  rw [List.findSome?_append]
  -- A look-up before the first success found nothing, and now leads to the one row if to any.
  cases hfound : before.findSome? g with
  | none => exact hrest
  | some y =>
    obtain ⟨z, hz, hy⟩ := List.exists_of_findSome?_eq_some hfound
    rcases hnone z (List.mem_append_left _ hz) (hbefore z hz) with h | h
    · exact .inl (hy.symm.trans h)
    · cases h.symm.trans hy

/-- The columns of a record that identify a row: each of them is declared, and the record has a value
other than a list for it. -/
def Identifies (kind : Kind) (record : Record) (columns : List String) : Prop :=
  ∀ column ∈ columns, (∃ type, kind.columns.get? column = some type) ∧
    ∃ value, record.get? column = some value ∧ ∀ items, value ≠ .arr items

/-- Columns that identify a row give a filter, if the record can be stored. -/
theorem Identifies.exists_filterOf? (h : kind.Identifies record columns)
    (htakes : ∀ field ∈ record.entries, kind.Takes field.1 field.2) :
    ∃ filter, kind.filterOf? record columns = some filter := by
  refine Kind.exists_filterOf? fun column hcolumn => ?_
  obtain ⟨hdeclared, value, hvalue, hlist⟩ := h column hcolumn
  have hfield := htakes (column, value) ((SortedMap.get?_eq_some_iff record).1 hvalue)
  obtain ⟨cell, hcell⟩ := hfield.exists_cellOf? hdeclared hlist
  obtain ⟨-, type, htype, hcoerce⟩ := cellOf?_eq_some_iff.1 hcell
  exact ⟨value, type, cell, hvalue, htype, hcoerce⟩

/-- Columns that told no row tell the one that was added, or still none. -/
theorem matching?_add_of_eq_none (hadd : s.add row = .ok s') (hkind : row.kind = kind.name)
    (h : kind.matching? record s columns = none) :
    kind.matching? record s' columns = some row.clean ∨ kind.matching? record s' columns = none := by
  unfold matching? at h ⊢
  cases hfilter : kind.filterOf? record columns with
  | none => exact .inr rfl
  | some filter =>
    rw [hfilter, Option.bind_some, ← hkind] at h
    rw [Option.bind_some, ← hkind]
    exact Store.findFirst?_add_of_eq_none hadd h

/-- Columns in which an added row agrees with a record tell this row, or the one they told before. -/
theorem matching?_add_of_isMatch (hadd : s.add row = .ok s') (hkind : row.kind = kind.name)
    (hfilter : kind.filterOf? record columns = some filter) (hmatch : row.isMatch filter = true) :
    kind.matching? record s' columns = some row.clean ∨
      ∃ a, kind.matching? record s columns = some a ∧ kind.matching? record s' columns = some a := by
  unfold matching?
  rw [hfilter, Option.bind_some, Option.bind_some, ← hkind]
  exact Store.findFirst?_add_of_isMatch hadd hmatch

/-- A record with an id describes the row that was saved with it. -/
theorem found?_add_of_idOf? {id : String} (hid : ∃ type, kind.columns.get? idColumn = some type)
    (htakes : ∀ field ∈ record.entries, kind.Takes field.1 field.2)
    (hrecord : idOf? record = some id) (hrow : row = kind.filled record c start)
    (hname : row.kind = kind.name) (hadd : s.add row = .ok s') :
    kind.found? record s' = some row.clean := by
  -- The row that was saved has the id of the record, so the id leads to it.
  obtain ⟨rowId, hrowId, -⟩ := Store.add_eq_ok_iff.1 hadd
  have hsame : rowId = id := id?_filled hid htakes hrecord (hrow ▸ hrowId)
  have hget := Store.get?_add hadd hrowId kind.name id
  rw [if_pos ⟨hname.symm, hsame.symm⟩] at hget
  rw [found?, hrecord, Option.bind_some, hget]
  rfl

/-- A record without an id describes the first row that its columns tell. -/
theorem found?_of_idOf?_eq_none (h : idOf? record = none) (s : Store) :
    kind.found? record s = kind.unique.findSome? (kind.matching? record s) := by
  rw [found?, h]
  rfl

/-- A record without an id that described a row describes what was made of this row, or still the row. -/
theorem found?_add_of_found? (hself : ∀ e ∈ kind.cellsOf record.entries, e.2.same e.2 = true)
    (hstate : c.pending = false ∨ ∀ columns ∈ kind.unique, stateColumn ∉ columns)
    (hrecord : idOf? record = none) (hfound : kind.found? record s = some start)
    (hrow : row = kind.filled record c start) (hname : row.kind = kind.name)
    (hadd : s.add row = .ok s') :
    kind.found? record s' = some row.clean ∨ kind.found? record s' = some start := by
  rw [found?_of_idOf?_eq_none hrecord] at hfound ⊢
  refine findSome?_again (fun columns _ => matching?_add_of_eq_none hadd hname)
    (fun columns hmem hstart => ?_) hfound
  -- The row agreed with the record in these columns before.
  obtain ⟨filter, hfilter, hfirst⟩ := Option.bind_eq_some_iff.1 hstart
  have hagrees : start.isMatch filter = true :=
    -- The filter is what `start` was found by.
    List.find?_some (p := fun r : Row => r.isMatch filter) hfirst
  have hmatch : row.isMatch filter = true := by
    rw [hrow]
    exact isMatch_filled hself (hstate.imp_right (· columns hmem)) hfilter fun e he _ _ =>
      List.all_eq_true.1 hagrees e he
  rcases matching?_add_of_isMatch hadd hname hfilter hmatch with h | ⟨other, hother, h⟩
  · exact .inl h
  · cases hstart.symm.trans hother
    exact .inr h

/-- A record without an id that described no row describes the row that was made for it, if it has values
for columns that identify a row. -/
theorem found?_add_of_identifies (hself : ∀ e ∈ kind.cellsOf record.entries, e.2.same e.2 = true)
    (htakes : ∀ field ∈ record.entries, kind.Takes field.1 field.2)
    (hstate : c.pending = false ∨ ∀ columns ∈ kind.unique, stateColumn ∉ columns)
    (hrecord : idOf? record = none) (hfound : kind.found? record s = none)
    (hmem : columns ∈ kind.unique) (hidentifies : kind.Identifies record columns)
    (hrow : row = kind.filled record c start) (hname : row.kind = kind.name)
    (hadd : s.add row = .ok s') :
    kind.found? record s' = some row.clean := by
  rw [found?_of_idOf?_eq_none hrecord] at hfound ⊢
  -- No columns told a row before.
  rw [List.findSome?_eq_none_iff] at hfound
  obtain ⟨filter, hfilter⟩ := hidentifies.exists_filterOf? htakes
  have hmatch : row.isMatch filter = true := by
    rw [hrow]
    refine isMatch_filled hself (hstate.imp_right (· columns hmem)) hfilter fun e he items hitems => ?_
    obtain ⟨-, value, hvalue, hlist⟩ := hidentifies e.1 (exists_of_mem_filterOf? hfilter he).1
    exact absurd (Option.some.inj (hvalue.symm.trans hitems)) (hlist items)
  -- These columns tell the row now, and no other columns tell another one.
  have htells : kind.matching? record s' columns = some row.clean := by
    rcases matching?_add_of_isMatch hadd hname hfilter hmatch with h | ⟨other, h, -⟩
    · exact h
    · cases (hfound columns hmem).symm.trans h
  cases hafter : kind.unique.findSome? (kind.matching? record s') with
  | none => cases (List.findSome?_eq_none_iff.1 hafter columns hmem).symm.trans htells
  | some other =>
    obtain ⟨others, hothers, hother⟩ := List.exists_of_findSome?_eq_some hafter
    rcases matching?_add_of_eq_none hadd hname (hfound others hothers) with h | h
    · exact hother.symm.trans h
    · cases h.symm.trans hother

/-- The row that a record was saved to is what the record describes afterwards, unless this is still the
row that it described before. -/
theorem target_again (hid : ∃ type, kind.columns.get? idColumn = some type)
    (hself : ∀ e ∈ kind.cellsOf record.entries, e.2.same e.2 = true)
    (htakes : ∀ field ∈ record.entries, kind.Takes field.1 field.2)
    (hstate : c.pending = false ∨ ∀ columns ∈ kind.unique, stateColumn ∉ columns)
    (hresolves : (∃ found, kind.found? record s = some found) ∨ (∃ id, idOf? record = some id) ∨
      ∃ columns ∈ kind.unique, kind.Identifies record columns)
    {freshId : String} (hkind : (kind.target record s freshId).kind = kind.name)
    (hrow : row = kind.filled record c (kind.target record s freshId)) (hadd : s.add row = .ok s') :
    kind.found? record s' = some row.clean ∨
      kind.found? record s' = some (kind.target record s freshId) := by
  have hname : row.kind = kind.name := by rw [hrow, kind_filled, hkind]
  -- The three ways in which a record is led to a row: its id, the row it describes, or new columns.
  cases hrecord : idOf? record with
  | some id => exact .inl (found?_add_of_idOf? hid htakes hrecord hrow hname hadd)
  | none =>
    cases hfound : kind.found? record s with
    | some start =>
      have htarget : kind.target record s freshId = start := by rw [target, hfound]; rfl
      rw [htarget] at hrow ⊢
      exact found?_add_of_found? hself hstate hrecord hfound hrow hname hadd
    | none =>
      rcases hresolves with ⟨found, h⟩ | ⟨id, h⟩ | ⟨columns, hmem, hidentifies⟩
      · cases hfound.symm.trans h
      · cases hrecord.symm.trans h
      · exact .inl (found?_add_of_identifies hself htakes hstate hrecord hfound hmem hidentifies hrow
          hname hadd)

/-! ## Saving again -/

/-- A record that was saved and is saved again, with the session after the first time, is saved to the
same row, and the store stays as it is. This is so for declared kinds without columns for floating-point
numbers if the record described a row in the store, or has an id, or has values for columns that identify
a row; a pending context must not change such columns. -/
theorem save_twice (hkind : kind.Declared)
    (hfloat : ∀ column, kind.columns.get? column ≠ some .float)
    (hnumeric : ∀ name value, record.get? name = some value → value.Numeric)
    (hc : c.session = some (.memory s))
    (hstate : c.pending = false ∨ ∀ columns ∈ kind.unique, stateColumn ∉ columns)
    (hresolves : (∃ found, kind.find record (.memory s) = .ok (some found)) ∨
      (∃ value id, record.get? idColumn = some value ∧ idText? value = some id) ∨
      ∃ columns ∈ kind.unique, kind.Identifies record columns)
    {freshId : String} (hsave : kind.save record c freshId = .ok (row, .memory s'))
    (freshId' : String) :
    ∃ again, kind.save record { c with session := some (.memory s') } freshId' =
        .ok (again, .memory s') ∧
      again.id? = row.id? ∧ again.cells = row.cells := by
  obtain ⟨htarget, htakes, hrow, added, hadd, heq⟩ := (save_eq_ok_iff hc).1 hsave
  obtain rfl : s' = added := Session.memory.inj heq
  have hself := same_self_of_mem_cellsOf hfloat hnumeric
  have hresolves : (∃ found, kind.found? record s = some found) ∨ (∃ id, idOf? record = some id) ∨
      ∃ columns ∈ kind.unique, kind.Identifies record columns := by
    -- The look-up of a store in memory does not fail.
    refine hresolves.imp (fun ⟨found, h⟩ => ?_) (.imp_left fun ⟨value, id, hvalue, hid⟩ => ?_)
    · rw [find_memory] at h
      exact ⟨found, Except.ok.inj h⟩
    · exact ⟨id, Option.bind_eq_some_iff.2 ⟨value, hvalue, hid⟩⟩
  -- The second row differs from the first in its mark at most.
  have hclean : (kind.filled record c (kind.target record s' freshId')).clean = row.clean ∧
      (kind.target record s' freshId').kind = kind.name := by
    rcases target_again hkind.exists_id hself htakes hstate hresolves htarget hrow hadd with h | h
    · have hagain : kind.target record s' freshId' = row.clean := by rw [target, h]; rfl
      rw [hagain, hrow]
      exact ⟨filled_filled hself _, (kind_filled ..).trans htarget⟩
    · have hagain : kind.target record s' freshId' = kind.target record s freshId := by
        rw [target, h]
        rfl
      rw [hagain, hrow]
      exact ⟨rfl, htarget⟩
  have hsecond : kind.save record { c with session := some (.memory s') } freshId' =
      .ok (kind.filled record c (kind.target record s' freshId'), .memory s') :=
    (save_eq_ok_iff rfl).2 ⟨hclean.2, htakes, rfl, s', Store.add_again hadd hclean.1, rfl⟩
  have hid : (kind.filled record c (kind.target record s' freshId')).clean.id? = row.clean.id? := by
    rw [hclean.1]
  have hcells : (kind.filled record c (kind.target record s' freshId')).clean.cells = row.clean.cells := by
    rw [hclean.1]
  exact ⟨_, hsecond, hid, hcells⟩

/-- Tags, told apart by their names. -/
def tagKind : Kind :=
  Kind.named "tag" |>.column "name" .text |>.column "weight" .int |>.column "state" .text
    |>.column "extra" .json |>.identifiedBy ["name"]

/-- A store with two tags. -/
def tagStore : Store :=
  Store.seed (Store.seed {} (tag "t1" "economy")) (tag "t2" "health")
where
  /-- A tag without a weight. -/
  tag (id name : String) : Row :=
    { kind := "tag"
      cells := (∅ : Listing String Cell).putMany
        [("id", .text id), ("name", .text name), ("state", .text "active")]
      modified := false }

/-- A record that gives a tag a weight. -/
def tagRecord : Record := .ofList [("extra", .obj [("x", .null)]), ("groups", .arr []),
  ("name", .str "health"), ("state", .str "active"), ("weight", .str " 7 ")]

/-- The record of a tag leads to the same tag when it is saved again, and to the same cells. -/
theorem save_twice_tag : ∃ row s', tagStore.Reachable ∧
    tagKind.save tagRecord { session := some (.memory tagStore), pending := true } "t3" =
      .ok (row, .memory s') ∧ row.id? = some "t2" ∧ row.state? = some "pending" ∧
    ∃ again, tagKind.save tagRecord { session := some (.memory s'), pending := true } "t4" =
      .ok (again, .memory s') ∧ again.id? = row.id? ∧ again.cells = row.cells := by
  have hdeclared : tagKind.Declared :=
    ((((Declared.named "tag").column "name" .text).column "weight" .int).column "state" .text
      |>.column "extra" .json).identifiedBy ["name"]
  have hfloat : ∀ column, tagKind.columns.get? column ≠ some .float := by
    intro column h
    have hall : ∀ e ∈ tagKind.columns.entries, e.2 ≠ .float := by decide
    exact hall (column, .float) (Listing.get?_eq_some_iff.1 h) rfl
  have hnumeric : ∀ name value, tagRecord.get? name = some value → value.Numeric := by
    intro name value h
    have hall : ∀ e ∈ tagRecord.entries, e.2.Numeric :=
      List.forall_mem_cons.2 ⟨⟨trivial, trivial⟩, List.forall_mem_cons.2 ⟨trivial,
        List.forall_mem_cons.2 ⟨trivial, List.forall_mem_cons.2 ⟨trivial,
          List.forall_mem_cons.2 ⟨trivial, nofun⟩⟩⟩⟩⟩
    exact hall (name, value) ((SortedMap.get?_eq_some_iff tagRecord).1 h)
  have hstate : ∀ columns ∈ tagKind.unique, stateColumn ∉ columns := by decide
  have hreach : tagStore.Reachable :=
    ⟨[.seed (tagStore.tag "t1" "economy"), .seed (tagStore.tag "t2" "health")], rfl⟩
  obtain ⟨row, s', hsave, hid, hpending⟩ : ∃ row s',
      tagKind.save tagRecord { session := some (.memory tagStore), pending := true } "t3" =
        .ok (row, .memory s') ∧ row.id? = some "t2" ∧ row.state? = some "pending" :=
    ⟨_, _, rfl, rfl, rfl⟩
  exact ⟨row, s', hreach, hsave, hid, hpending,
    save_twice hdeclared hfloat hnumeric rfl (.inr hstate) (.inl ⟨_, rfl⟩) hsave "t4"⟩

end Kind

end FlatRecord
