import FlatRecord.Proofs.Store.Memory
import FlatRecord.Store.Saving

/-!
# What saving a record does

Saving to a store in memory, part by part: which row the record describes (`Kind.found?`), which cells
its fields store (`Kind.cellsOf`), and the row that comes of storing them (`Row.setMany`).
`Kind.save_eq_ok_iff` puts the parts together: saving succeeds when the row is of the kind, every field
fits its column and the row has an id at the end, and then the row is staged.
-/

namespace FlatRecord

/-! ## Storing cells -/

namespace Row

variable {row : Row} {column column' : String} {cell cell' : Cell}

/-- A cell that is held is not stored again. -/
theorem set_of_holds (h : row.holds column cell = true) : row.set column cell = row := by
  rw [set, if_pos h]

/-- Storing a cell does not change the kind of a row. -/
@[simp] theorem kind_set (row : Row) (column : String) (cell : Cell) :
    (row.set column cell).kind = row.kind := by
  unfold set
  split <;> rfl

/-- Storing a cell leaves the other columns. -/
theorem get?_set_of_ne (row : Row) (cell : Cell) (h : column' ≠ column) :
    (row.set column cell).get? column' = row.get? column' := by
  unfold set
  split
  · rfl
  · show (row.cells.put column cell).get? column' = row.cells.get? column'
    rw [Listing.get?_put, if_neg h]

/-- A column in which a cell is stored has the cell, unless it held the same value already. -/
theorem get?_set_self (row : Row) (column : String) (cell : Cell) :
    (row.set column cell).get? column =
      if row.holds column cell then row.get? column else some cell := by
  unfold set
  split
  · rfl
  · show (row.cells.put column cell).get? column = some cell
    rw [Listing.get?_put, if_pos rfl]

/-- A row is marked as changed when a cell is stored in it that it does not hold. -/
theorem modified_set (row : Row) (column : String) (cell : Cell) :
    (row.set column cell).modified = (row.modified || !row.holds column cell) := by
  unfold set
  cases row.holds column cell with
  | true => rw [if_pos rfl, Bool.not_true, Bool.or_false]
  | false => rw [if_neg Bool.false_ne_true, Bool.not_false, Bool.or_true]

/-- Storing a cell changes nothing in other columns. -/
theorem holds_set_of_ne (row : Row) (cell cell' : Cell) (h : column' ≠ column) :
    (row.set column cell).holds column' cell' = row.holds column' cell' := by
  unfold holds
  rw [get?_set_of_ne row cell h]

/-- Stores some cells, one after the other. -/
def setMany (row : Row) (cells : List (String × Cell)) : Row :=
  cells.foldl (fun row e => row.set e.1 e.2) row

/-- Storing some cells does not change the kind of a row. -/
@[simp] theorem kind_setMany (row : Row) (cells : List (String × Cell)) :
    (row.setMany cells).kind = row.kind := by
  induction cells generalizing row with
  | nil => rfl
  | cons e rest ih => exact (ih _).trans (kind_set row e.1 e.2)

/-- Cells that are all held are not stored again. -/
theorem setMany_of_holds {cells : List (String × Cell)}
    (h : ∀ e ∈ cells, row.holds e.1 e.2 = true) : row.setMany cells = row := by
  induction cells with
  | nil => rfl
  | cons e rest ih =>
    obtain ⟨hfirst, hrest⟩ := List.forall_mem_cons.1 h
    calc (row.set e.1 e.2).setMany rest = row.setMany rest := by rw [set_of_holds hfirst]
      _ = row := ih hrest

/-- Storing cells leaves the columns of which none of them is. -/
theorem get?_setMany_of_not_mem {cells : List (String × Cell)} (row : Row)
    (h : column ∉ cells.map (·.1)) : (row.setMany cells).get? column = row.get? column := by
  induction cells generalizing row with
  | nil => rfl
  | cons e rest ih =>
    rw [List.map_cons, List.mem_cons, not_or] at h
    exact (ih (row.set e.1 e.2) h.2).trans (get?_set_of_ne row e.2 h.1)

/-- After cells of different columns were stored, each column has its cell, unless it held the same value
already. -/
theorem get?_setMany_of_mem {cells : List (String × Cell)} (row : Row)
    (hnodup : (cells.map (·.1)).Nodup) (hmem : (column, cell) ∈ cells) :
    (row.setMany cells).get? column =
      if row.holds column cell then row.get? column else some cell := by
  induction cells generalizing row with
  | nil => cases hmem
  | cons e rest ih =>
    rw [List.map_cons, List.nodup_cons] at hnodup
    show ((row.set e.1 e.2).setMany rest).get? column = _
    rcases List.mem_cons.1 hmem with rfl | hrest
    · -- The cell of the first column is not touched by the rest.
      rw [get?_setMany_of_not_mem _ hnodup.1, get?_set_self]
    · have hne : column ≠ e.1 := fun h => hnodup.1 (List.mem_map.2 ⟨_, hrest, h⟩)
      rw [ih _ hnodup.2 hrest, holds_set_of_ne row e.2 cell hne, get?_set_of_ne row e.2 hne]

/-- Cells of different columns, each the same as itself, are all held after they were stored. -/
theorem holds_setMany {cells : List (String × Cell)} (row : Row)
    (hnodup : (cells.map (·.1)).Nodup) (hself : ∀ e ∈ cells, e.2.same e.2 = true) :
    ∀ e ∈ cells, (row.setMany cells).holds e.1 e.2 = true := by
  intro e he
  have hget := get?_setMany_of_mem row hnodup he
  -- A value that was held stays, and one that was not is what was stored.
  by_cases hheld : row.holds e.1 e.2 = true
  · rw [if_pos hheld] at hget
    unfold holds at hheld ⊢
    rwa [hget]
  · rw [if_neg hheld] at hget
    unfold holds
    rw [hget]
    exact hself e he

/-- Storing cells leaves a row unmarked when it was so before and holds all of them. -/
theorem modified_setMany_eq_false_iff {cells : List (String × Cell)} (row : Row) :
    (row.setMany cells).modified = false ↔
      row.modified = false ∧ ∀ e ∈ cells, row.holds e.1 e.2 = true := by
  induction cells generalizing row with
  | nil => exact ⟨fun h => ⟨h, nofun⟩, fun h => h.1⟩
  | cons e rest ih =>
    rw [List.forall_mem_cons]
    refine (ih (row.set e.1 e.2)).trans ?_
    rw [modified_set]
    cases hheld : row.holds e.1 e.2 with
    | true => rw [set_of_holds hheld, Bool.not_true, Bool.or_false, and_iff_right rfl]
    | false => simp only [Bool.not_false, Bool.or_true, Bool.true_eq_false, Bool.false_eq_true, false_and,
        and_false]

/-- Cells that leave the row unmarked were all held. -/
theorem setMany_of_not_modified {cells : List (String × Cell)} (row : Row)
    (h : (row.setMany cells).modified = false) : row.setMany cells = row :=
  setMany_of_holds ((modified_setMany_eq_false_iff row).1 h).2

/-- Storing a text puts it into the column. -/
theorem cells_set_text (row : Row) (column s : String) :
    (row.set column (.text s)).cells = row.cells.put column (.text s) := by
  unfold set
  split
  · rename_i hheld
    -- The text is there already.
    have htext : row.cells.get? column = some (.text s) := by
      unfold holds get? at hheld
      cases hcell : row.cells.get? column with
      | none =>
        rw [hcell] at hheld
        cases hheld
      | some cell =>
        rw [hcell] at hheld
        cases cell <;> first | cases hheld | rw [of_decide_eq_true hheld]
    exact (Listing.put_of_get? htext).symm
  · rfl

/-- What other cells than those of one column store is of no account when all of them are held. -/
theorem put_cells_setMany {cells : List (String × Cell)} (row : Row) (value : Cell)
    (h : ∀ e ∈ cells, e.1 ≠ column → row.holds e.1 e.2 = true) :
    (row.setMany cells).cells.put column value = row.cells.put column value := by
  induction cells generalizing row with
  | nil => rfl
  | cons e rest ih =>
    obtain ⟨hfirst, hrest⟩ := List.forall_mem_cons.1 h
    show ((row.set e.1 e.2).setMany rest).cells.put column value = row.cells.put column value
    -- What was stored in the column itself is replaced at once.
    by_cases hcolumn : e.1 = column
    · have hkeep : ∀ e' ∈ rest, e'.1 ≠ column → (row.set e.1 e.2).holds e'.1 e'.2 = true := by
        intro e' he' hne
        rw [holds_set_of_ne row e.2 e'.2 (hcolumn ▸ hne)]
        exact hrest e' he' hne
      rw [ih _ hkeep, hcolumn]
      unfold set
      split
      · rfl
      · exact Listing.put_put row.cells column value e.2
    · -- In any other column the cell is held, so nothing was stored.
      rw [set_of_holds (hfirst hcolumn)]
      exact ih row hrest

end Row

namespace Kind

variable {kind : Kind} {record : Record} {c : Context} {s : Store} {row row' : Row} {name : String}
  {value : Json}

/-! ## The fields of a record -/

/-- The cell that a field of a record stores; a list and a field without a column store none. -/
def cellOf? (kind : Kind) (name : String) : Json → Option Cell
  | .arr _ => none
  | value => (kind.columns.get? name).bind (Cell.coerce? value)

/-- The field can be stored: it is a list, or it has no column, or the value fits the column. -/
def Takes (kind : Kind) (name : String) (value : Json) : Prop :=
  (∃ items, value = .arr items) ∨ kind.columns.get? name = none ∨
    ∃ cell, kind.cellOf? name value = some cell

/-- The cells that the fields of a record store. -/
def cellsOf (kind : Kind) (fields : List (String × Json)) : List (String × Cell) :=
  fields.filterMap fun field => (kind.cellOf? field.1 field.2).map (field.1, ·)

/-- A value other than a list is stored as what it is in the column. -/
theorem cellOf?_of_ne (h : ∀ items, value ≠ .arr items) :
    kind.cellOf? name value = (kind.columns.get? name).bind (Cell.coerce? value) := by
  cases value with
  | arr items => exact absurd rfl (h items)
  | _ => rfl

/-- A field stores a cell when it is no list and its value fits its column. -/
theorem cellOf?_eq_some_iff {cell : Cell} : kind.cellOf? name value = some cell ↔
    (∀ items, value ≠ .arr items) ∧
      ∃ type, kind.columns.get? name = some type ∧ Cell.coerce? value type = some cell := by
  by_cases hlist : ∃ items, value = .arr items
  · obtain ⟨items, rfl⟩ := hlist
    exact ⟨nofun, fun h => absurd rfl (h.1 items)⟩
  · have hne : ∀ items, value ≠ .arr items := fun items h => hlist ⟨items, h⟩
    rw [cellOf?_of_ne hne, Option.bind_eq_some_iff, and_iff_right hne]

/-- The stored cells are those of the fields. -/
theorem mem_cellsOf_iff {fields : List (String × Json)} {e : String × Cell} :
    e ∈ kind.cellsOf fields ↔ ∃ value, (e.1, value) ∈ fields ∧ kind.cellOf? e.1 value = some e.2 := by
  unfold cellsOf
  rw [List.mem_filterMap]
  constructor
  · rintro ⟨field, hfield, hstored⟩
    obtain ⟨cell, hcell, rfl⟩ := Option.map_eq_some_iff.1 hstored
    exact ⟨field.2, hfield, hcell⟩
  · rintro ⟨value, hfield, hcell⟩
    exact ⟨(e.1, value), hfield, Option.map_eq_some_iff.2 ⟨e.2, hcell, rfl⟩⟩

/-- Storing the field of a value other than a list. -/
theorem storeField_of_ne (h : ∀ items, value ≠ .arr items) (row : Row) (name : String) :
    kind.storeField row name value = match kind.columns.get? name with
      | none => .ok row
      | some type => match Cell.coerce? value type with
        | some cell => .ok (row.set name cell)
        | none => .error (.unfit kind.name name type (Cell.describe value)) := by
  cases value with
  | arr items => exact absurd rfl (h items)
  | _ => unfold storeField; cases kind.columns.get? name <;> rfl

/-- Storing a field stores its cell, if it has one. -/
theorem storeField_eq_ok_iff : kind.storeField row name value = .ok row' ↔
    kind.Takes name value ∧ row' = ((kind.cellOf? name value).map (row.set name)).getD row := by
  by_cases hlist : ∃ items, value = .arr items
  · -- A list is passed over.
    obtain ⟨items, rfl⟩ := hlist
    exact ⟨fun h => ⟨.inl ⟨items, rfl⟩, (Except.ok.inj h).symm⟩, fun h => by rw [h.2]; rfl⟩
  · have hne : ∀ items, value ≠ .arr items := fun items h => hlist ⟨items, h⟩
    have hcell := @cellOf?_of_ne kind name value hne
    rw [storeField_of_ne hne, Takes, hcell]
    cases hcolumn : kind.columns.get? name with
    -- A name without a column is passed over too.
    | none =>
      exact ⟨fun h => ⟨.inr (.inl rfl), (Except.ok.inj h).symm⟩, fun h => by rw [h.2]; rfl⟩
    | some type =>
      dsimp only
      rw [Option.bind_some]
      cases hfits : Cell.coerce? value type with
      | some cell =>
        exact ⟨fun h => ⟨.inr (.inr ⟨cell, rfl⟩), (Except.ok.inj h).symm⟩, fun h => by rw [h.2]; rfl⟩
      | none =>
        refine ⟨nofun, ?_⟩
        rintro ⟨hlist' | ⟨⟨⟩⟩ | ⟨cell, ⟨⟩⟩, -⟩
        exact absurd hlist' hlist

/-- Storing the fields of a record stores their cells. -/
theorem storeFields_eq_ok_iff {fields : List (String × Json)} :
    kind.storeFields row fields = .ok row' ↔
      (∀ field ∈ fields, kind.Takes field.1 field.2) ∧ row' = row.setMany (kind.cellsOf fields) := by
  induction fields generalizing row with
  | nil => exact ⟨fun h => ⟨nofun, (Except.ok.inj h).symm⟩, fun h => by rw [h.2]; rfl⟩
  | cons field rest ih =>
    have hcells : ∀ first, ((kind.cellOf? field.1 field.2).map (row.set field.1)).getD row = first →
        row.setMany (kind.cellsOf (field :: rest)) = first.setMany (kind.cellsOf rest) := by
      rintro first rfl
      unfold cellsOf
      rw [List.filterMap_cons]
      cases kind.cellOf? field.1 field.2 <;> rfl
    rw [List.forall_mem_cons]
    show (kind.storeField row field.1 field.2 >>= fun row => kind.storeFields row rest) = .ok row' ↔ _
    -- The first field is refused, or is stored and the rest is stored after it.
    cases hfirst : kind.storeField row field.1 field.2 with
    | error err =>
      refine ⟨nofun, fun h => ?_⟩
      cases hfirst.symm.trans (storeField_eq_ok_iff.2 ⟨h.1.1, rfl⟩)
    | ok first =>
      obtain ⟨htakes, hset⟩ := storeField_eq_ok_iff.1 hfirst
      rw [hcells first hset.symm, and_iff_right htakes]
      exact ih

/-! ## The row that a record describes -/

/-- The cells of a record in a set of columns tell the first row that agrees with them. -/
def matching? (kind : Kind) (record : Record) (s : Store) (columns : List String) : Option Row :=
  (kind.filterOf? record columns).bind (s.findFirst? kind.name)

/-- The id that a record has, if any. -/
def idOf? (record : Record) : Option String := (record.get? idColumn).bind idText?

/-- The row in a store that a record describes. -/
def found? (kind : Kind) (record : Record) (s : Store) : Option Row :=
  ((idOf? record).bind (s.get? kind.name)).or (kind.unique.findSome? (kind.matching? record s))

/-- The first row that agrees with a record in a store in memory. -/
theorem findUnique_memory (kind : Kind) (record : Record) (s : Store) (unique : List (List String)) :
    kind.findUnique record (.memory s) unique =
      .ok (unique.findSome? (kind.matching? record s)) := by
  induction unique with
  | nil => rfl
  | cons columns rest ih =>
    -- Columns without a filter are passed over; with one the first row that matches is the answer.
    rw [findUnique, List.findSome?_cons, matching?, ih]
    cases kind.filterOf? record columns with
    | none => rfl
    | some filter =>
      rw [Option.bind_some]
      dsimp only [Session.findFirst?]
      cases s.findFirst? kind.name filter <;> rfl

/-- Looking for the row that a record describes in a store in memory. -/
theorem find_memory (kind : Kind) (record : Record) (s : Store) :
    kind.find record (.memory s) = .ok (kind.found? record s) := by
  unfold find found? idOf?
  cases (record.get? idColumn).bind idText? with
  | none => exact findUnique_memory kind record s kind.unique
  | some id =>
    rw [Option.bind_some]
    -- A row under the id is the answer; without one the columns are tried.
    dsimp only [Session.get?]
    cases s.get? kind.name id with
    | none => exact findUnique_memory kind record s kind.unique
    | some row => rfl

/-! ## Saving -/

/-- The row to which a record is saved: the one that it describes, or else a fresh one. -/
def target (kind : Kind) (record : Record) (s : Store) (freshId : String) : Row :=
  (kind.found? record s).getD (Row.fresh kind freshId)

/-- A row that is not changed is not marked as pending. -/
theorem markPending_of_not_modified (h : row.modified = false) (record : Record) (c : Context) :
    markPending row record c = row := by
  rw [markPending, h, Bool.and_false, if_neg Bool.false_ne_true]

/-- The row that a record makes of another one. -/
def filled (kind : Kind) (record : Record) (c : Context) (row : Row) : Row :=
  markPending (row.setMany (kind.cellsOf record.entries)) record c

/-- Saving to a store in memory: the fields are stored in the row that the record is saved to, and the row
is staged. -/
theorem save_memory (hc : c.session = some (.memory s)) (freshId : String) :
    kind.save record c freshId =
      if (kind.target record s freshId).kind = kind.name then
        (kind.storeFields (kind.target record s freshId) record.entries).bind fun stored =>
          (s.add (markPending stored record c)).map fun s' =>
            (markPending stored record c, .memory s')
      else .error (.wrongKind kind.name (kind.target record s freshId).kind) := by
  have hsession : c.requireSession = .ok (.memory s) := by unfold Context.requireSession; rw [hc]
  unfold save
  rw [hsession]
  show (kind.find record (.memory s) >>= _) = _
  rw [find_memory]
  unfold target
  dsimp only [bind, Except.bind, Session.add]
  generalize (kind.found? record s).getD (Row.fresh kind freshId) = target
  by_cases hkind : target.kind = kind.name
  · rw [if_neg (not_not_intro hkind), if_pos hkind]
    cases kind.storeFields target record.entries with
    | error err => rfl
    | ok stored =>
      dsimp only
      cases s.add (markPending stored record c) <;> rfl
  · rw [if_pos hkind, if_neg hkind]
    rfl

/-- Saving succeeds when the row is of the kind, every field can be stored and the row has an id in the
end. -/
theorem save_eq_ok_iff (hc : c.session = some (.memory s)) {freshId : String} {session : Session} :
    kind.save record c freshId = .ok (row, session) ↔
      (kind.target record s freshId).kind = kind.name ∧
      (∀ field ∈ record.entries, kind.Takes field.1 field.2) ∧
      row = kind.filled record c (kind.target record s freshId) ∧
      ∃ s', s.add row = .ok s' ∧ session = .memory s' := by
  rw [save_memory hc]
  generalize kind.target record s freshId = target
  by_cases hkind : target.kind = kind.name
  · rw [if_pos hkind, and_iff_right hkind]
    -- The fields must all be stored, and then the row must have an id.
    cases hfields : kind.storeFields target record.entries with
    | error err =>
      refine ⟨nofun, fun ⟨htakes, _⟩ => ?_⟩
      cases hfields.symm.trans (storeFields_eq_ok_iff.2 ⟨htakes, rfl⟩)
    | ok stored =>
      obtain ⟨htakes, rfl⟩ := storeFields_eq_ok_iff.1 hfields
      rw [and_iff_right htakes]
      show (s.add (kind.filled record c target)).map _ = _ ↔ _
      constructor
      · intro h
        cases hadd : s.add (kind.filled record c target) with
        | error err =>
          rw [hadd] at h
          cases h
        | ok s' =>
          rw [hadd] at h
          cases h
          exact ⟨rfl, s', hadd, rfl⟩
      · rintro ⟨rfl, s', hadd, rfl⟩
        rw [hadd]
        rfl
  · rw [if_neg hkind]
    exact ⟨nofun, fun h => absurd h.1 hkind⟩

end Kind

end FlatRecord
