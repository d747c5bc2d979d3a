import FlatRecord.Proofs.Store.Cell
import FlatRecord.Proofs.Store.Saving

/-!
# Filling a row from a record

What a row holds after a record was stored in it (`Kind.filled`), column by column: the cell that the field
of the record became, or what was there when that is the same value or the record stores nothing in the
column (`Kind.get?_filled_of_cellOf?`, `Kind.get?_filled_of_not_stored`). The state is an exception in a
pending context, where a changed row gets a state of its own (`Kind.state?_filled`). Whether the row is
changed is known exactly: it was marked before, or some cell of the record differs from what it held
(`Kind.modified_filled_eq_false_iff`).

With an id in the record that leads to a row, the filled row has that id (`Kind.id?_filled`).
-/

namespace FlatRecord

namespace Kind

variable {kind : Kind} {record : Record} {c : Context} {row : Row} {column : String} {value : Json}
  {cell : Cell}

/-! ## The cells of a record -/

/-- The columns that are stored are names of fields, in their order. -/
theorem map_fst_cellsOf_sublist (kind : Kind) (fields : List (String × Json)) :
    ((kind.cellsOf fields).map (·.1)).Sublist (fields.map (·.1)) := by
  induction fields with
  | nil => exact .slnil
  | cons field rest ih =>
    unfold cellsOf at ih ⊢
    rw [List.filterMap_cons]
    cases kind.cellOf? field.1 field.2 with
    | none => exact ih.cons _
    | some cell => exact ih.cons_cons _

/-- A record stores one cell in a column at most. -/
theorem nodup_cellsOf (kind : Kind) (record : Record) :
    ((kind.cellsOf record.entries).map (·.1)).Nodup :=
  (map_fst_cellsOf_sublist kind record.entries).nodup record.nodup_keys

/-- A cell that a record stores is that of the field in its column. -/
theorem mem_cellsOf_record {e : String × Cell} : e ∈ kind.cellsOf record.entries ↔
    ∃ value, record.get? e.1 = some value ∧ kind.cellOf? e.1 value = some e.2 := by
  rw [mem_cellsOf_iff]
  exact exists_congr fun value => and_congr_left' (SortedMap.get?_eq_some_iff record).symm

/-- A column gets no cell from a record that stores nothing in it. -/
theorem not_mem_map_fst_cellsOf
    (h : ∀ value, record.get? column = some value → kind.cellOf? column value = none) :
    column ∉ (kind.cellsOf record.entries).map (·.1) := by
  intro hmem
  obtain ⟨e, he, rfl⟩ := List.mem_map.1 hmem
  obtain ⟨value, hvalue, hcell⟩ := mem_cellsOf_record.1 he
  cases (h value hvalue).symm.trans hcell

/-- A field with a column that can be stored and is no list has a cell. -/
theorem Takes.exists_cellOf? {name : String} (h : kind.Takes name value)
    (hcolumn : ∃ type, kind.columns.get? name = some type) (hlist : ∀ items, value ≠ .arr items) :
    ∃ cell, kind.cellOf? name value = some cell := by
  obtain ⟨type, htype⟩ := hcolumn
  rcases h with ⟨items, h⟩ | h | h
  · exact absurd h (hlist items)
  · cases h.symm.trans htype
  · exact h

/-- A field that can be stored and is no list becomes the cell that its column makes of the value. -/
theorem Takes.exists_coerce? {name : String} {type : ColumnType} (h : kind.Takes name value)
    (htype : kind.columns.get? name = some type) (hlist : ∀ items, value ≠ .arr items) :
    ∃ cell, kind.cellOf? name value = some cell ∧ Cell.coerce? value type = some cell := by
  obtain ⟨cell, hcell⟩ := h.exists_cellOf? ⟨type, htype⟩ hlist
  obtain ⟨-, type', htype', hcoerce⟩ := cellOf?_eq_some_iff.1 hcell
  cases htype.symm.trans htype'
  exact ⟨cell, hcell, hcoerce⟩

/-! ## Marking a row as pending -/

/-- Marking a row as pending does not change its kind. -/
@[simp] theorem kind_markPending (row : Row) (record : Record) (c : Context) :
    (markPending row record c).kind = row.kind := by
  unfold markPending
  split
  · exact Row.kind_set ..
  · rfl

/-- Marking a row as pending does not change whether it counts as changed. -/
@[simp] theorem modified_markPending (row : Row) (record : Record) (c : Context) :
    (markPending row record c).modified = row.modified := by
  unfold markPending
  split
  · rename_i hpending
    rw [Row.modified_set, (Bool.and_eq_true_iff.1 hpending).2, Bool.true_or]
  · rfl

/-- Marking a row as pending changes its state only, and only if the row is changed. -/
theorem get?_markPending (record : Record)
    (h : (c.pending && row.modified) = false ∨ column ≠ stateColumn) :
    (markPending row record c).get? column = row.get? column := by
  unfold markPending
  rcases h with h | h
  · rw [h, if_neg Bool.false_ne_true]
  · split
    · exact Row.get?_set_of_ne row _ h
    · rfl

/-! ## The filled row -/

/-- Filling a row does not change its kind. -/
@[simp] theorem kind_filled (kind : Kind) (record : Record) (c : Context) (row : Row) :
    (kind.filled record c row).kind = row.kind :=
  (kind_markPending ..).trans (Row.kind_setMany ..)

/-- A filled row is unmarked when it was so before and held all cells of the record. -/
theorem modified_filled_eq_false_iff : (kind.filled record c row).modified = false ↔
    row.modified = false ∧ ∀ e ∈ kind.cellsOf record.entries, row.holds e.1 e.2 = true := by
  rw [filled, modified_markPending]
  exact Row.modified_setMany_eq_false_iff row

/-- A row that comes out unmarked is the row that it was. -/
theorem filled_of_not_modified (h : (kind.filled record c row).modified = false) :
    kind.filled record c row = row := by
  rw [filled, modified_markPending] at h
  rw [filled, markPending_of_not_modified h, Row.setMany_of_not_modified row h]

/-- Outside of a pending state, a column of a filled row has the cell that the record stores in it, unless
it held the same value already. -/
theorem get?_filled_of_cellOf?
    (hstate : (c.pending && (kind.filled record c row).modified) = false ∨ column ≠ stateColumn)
    (hvalue : record.get? column = some value) (hcell : kind.cellOf? column value = some cell) :
    (kind.filled record c row).get? column =
      if row.holds column cell then row.get? column else some cell := by
  rw [filled, modified_markPending] at hstate
  rw [filled, get?_markPending record hstate]
  exact Row.get?_setMany_of_mem row (nodup_cellsOf kind record)
    (mem_cellsOf_record.2 ⟨value, hvalue, hcell⟩)

/-- Outside of a pending state, a column of a filled row is as it was if the record stores nothing in it. -/
theorem get?_filled_of_not_stored
    (hstate : (c.pending && (kind.filled record c row).modified) = false ∨ column ≠ stateColumn)
    (h : ∀ value, record.get? column = some value → kind.cellOf? column value = none) :
    (kind.filled record c row).get? column = row.get? column := by
  rw [filled, modified_markPending] at hstate
  rw [filled, get?_markPending record hstate]
  exact Row.get?_setMany_of_not_mem row (not_mem_map_fst_cellsOf h)

/-- In a pending context a changed row gets the state for pending rows. -/
theorem get?_state_filled (hpending : c.pending = true)
    (hmodified : (kind.filled record c row).modified = true) :
    (kind.filled record c row).get? stateColumn = some (.text (pendingState record)) := by
  rw [filled, modified_markPending] at hmodified
  rw [filled, markPending, hpending, hmodified, Bool.and_self, if_pos rfl, Row.get?, Row.cells_set_text,
    Listing.get?_put, if_pos rfl]

/-- A row that is changed in a pending context is pending. -/
theorem state?_filled (hpending : c.pending = true)
    (hmodified : (kind.filled record c row).modified = true) :
    (kind.filled record c row).state? = some (pendingState record) := by
  rw [Row.state?, get?_state_filled hpending hmodified]
  rfl

/-- Outside of a pending state a row holds what was stored in it. -/
theorem holds_filled (hself : ∀ e ∈ kind.cellsOf record.entries, e.2.same e.2 = true)
    {e : String × Cell} (he : e ∈ kind.cellsOf record.entries)
    (hstate : c.pending = false ∨ e.1 ≠ stateColumn) (row : Row) :
    (kind.filled record c row).holds e.1 e.2 = true := by
  have hstored := Row.holds_setMany row (nodup_cellsOf kind record) hself e he
  unfold Row.holds at hstored ⊢
  rwa [filled, get?_markPending record (hstate.imp_left fun h => by rw [h, Bool.false_and])]

/-! ## The id of a filled row -/

/-- A text cell that an id becomes is the id. -/
theorem eq_of_coerce?_idText? {type : ColumnType} {id text : String}
    (hid : idText? value = some id) (hcell : Cell.coerce? value type = some (.text text)) :
    text = id := by
  -- A text is stored in a column of texts only.
  have htype : type = .text := by
    rcases Cell.typeOf?_of_coerce? hcell with h | h
    · cases h
    · exact (Option.some.inj h).symm
  subst htype
  cases value with
  | null | bool | arr | obj => cases hid
  -- A number is an id as the text that a column of texts stores for it.
  | int n | float x =>
    rw [← Cell.text.inj (Option.some.inj hcell)]
    exact Option.some.inj hid
  | str s =>
    rw [← Cell.text.inj (Option.some.inj hcell)]
    -- The empty text is no id.
    dsimp only [idText?] at hid
    split at hid
    · cases hid
    · exact Option.some.inj hid

/-- The id of a filled row is the text that the record stores as id. -/
theorem cellOf?_of_id?_filled {id : String} (hvalue : record.get? idColumn = some value)
    (hcell : kind.cellOf? idColumn value = some cell)
    (hrow : (kind.filled record c row).id? = some id) : cell = .text id := by
  obtain ⟨found, hfound, htext⟩ := Option.bind_eq_some_iff.1 hrow
  have hstate : idColumn ≠ stateColumn := by decide
  rw [get?_filled_of_cellOf? (.inr hstate) hvalue hcell] at hfound
  cases found <;> cases htext
  by_cases hheld : row.holds idColumn cell = true
  · -- The row had an equal cell, and only the text itself is equal to a text.
    rw [if_pos hheld] at hfound
    unfold Row.holds at hheld
    rw [hfound] at hheld
    cases cell <;> first | cases hheld | rw [of_decide_eq_true hheld]
  · rw [if_neg hheld] at hfound
    exact Option.some.inj hfound

/-- With an id in the record, the row that is filled has that id. -/
theorem id?_filled (hid : ∃ type, kind.columns.get? idColumn = some type)
    (htakes : ∀ field ∈ record.entries, kind.Takes field.1 field.2) {id id' : String}
    (hrecord : idOf? record = some id) (hrow : (kind.filled record c row).id? = some id') :
    id' = id := by
  obtain ⟨value, hvalue, htext⟩ := Option.bind_eq_some_iff.1 hrecord
  have hlist : ∀ items, value ≠ .arr items := by
    rintro items rfl
    cases htext
  obtain ⟨cell, hcell⟩ := Takes.exists_cellOf?
    (htakes (idColumn, value) ((SortedMap.get?_eq_some_iff record).1 hvalue)) hid hlist
  -- The id of the row is what the record stores, and what the record stores is its own id.
  have hstored := cellOf?_of_id?_filled hvalue hcell hrow
  obtain ⟨-, type, -, hcoerce⟩ := cellOf?_eq_some_iff.1 (hstored ▸ hcell)
  exact eq_of_coerce?_idText? htext hcoerce

end Kind

end FlatRecord
