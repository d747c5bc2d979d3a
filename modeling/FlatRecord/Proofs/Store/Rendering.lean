import FlatRecord.Proofs.Store.Cell
import FlatRecord.Proofs.Store.Saving
import FlatRecord.Store.Rendering

/-!
# Saving a rendered row

A row that is rendered and saved again comes back as it was, and nothing in the store changes
(`Kind.save_render`). The record of the row leads to the row by its id; each field of the record is read back
as the cell from which it comes, so no cell is stored and the row is not marked as changed. Hidden
columns are not in the record, and lists are not stored.
-/

namespace FlatRecord

/-! ## The record of a row -/

namespace Row

variable {row : Row} {column : String} {cell : Cell} {v : Json}

/-- Without overrides a row is rendered to its columns. -/
@[simp] theorem fst_render_empty (row : Row) (c : Context) : (row.render ∅ c).1 = row.toRecord := rfl

/-- A value in the record of a row is that of a cell. -/
theorem exists_of_get?_toRecord (h : row.toRecord.get? column = some v) :
    ∃ cell, row.get? column = some cell ∧ v = cell.toJson := by
  obtain ⟨e, he, heq⟩ := List.mem_map.1 (SortedMap.mem_of_get?_ofList h)
  obtain ⟨rfl, rfl⟩ := Prod.mk.inj heq
  exact ⟨e.2, Listing.get?_eq_some_iff.2 (List.mem_filter.1 he).1, rfl⟩

/-- The record of a row has the value of each cell that is not hidden. -/
theorem get?_toRecord (hcell : row.get? column = some cell) (hshown : column ∉ hiddenColumns) :
    row.toRecord.get? column = some cell.toJson := by
  refine SortedMap.get?_ofList_of_forall_eq (List.mem_map.2 ⟨(column, cell), ?_, rfl⟩) fun w hw => ?_
  · refine List.mem_filter.2 ⟨Listing.get?_eq_some_iff.1 hcell, ?_⟩
    rw [Bool.not_eq_true', List.contains_eq_mem, decide_eq_false_iff_not]
    exact hshown
  · -- The row has one cell in the column.
    obtain ⟨e, he, heq⟩ := List.mem_map.1 hw
    obtain ⟨rfl, rfl⟩ := Prod.mk.inj heq
    have hother : row.get? e.1 = some e.2 := Listing.get?_eq_some_iff.2 (List.mem_filter.1 he).1
    rw [Option.some.inj (hother.symm.trans hcell)]

end Row

/-! ## Saving it again -/

namespace Kind

variable {s : Store} {kind : Kind} {id : String} {row : Row} {c : Context}

/-- The id of a row is that of its record. -/
theorem idOf?_toRecord (hne : id ≠ "") (hid : row.id? = some id) :
    idOf? row.toRecord = some id := by
  obtain ⟨cell, hcell, htext⟩ := Option.bind_eq_some_iff.1 hid
  have hvalue : row.toRecord.get? idColumn = some cell.toJson :=
    Row.get?_toRecord hcell (by decide)
  -- An id is shown by a text cell only.
  cases cell <;> cases htext
  have hempty : id.isEmpty = false := by
    rw [Bool.eq_false_iff, Ne, String.isEmpty_iff]
    exact hne
  unfold idOf?
  rw [hvalue, Option.bind_some, Cell.toJson, idText?, hempty]
  rfl

/-- The fields of the record of a row can all be stored, and store cells that the row holds already. -/
theorem holds_cellsOf_toRecord
    (hfits : ∀ column type cell, kind.columns.get? column = some type → row.get? column = some cell →
      cell.Fits type)
    (hfloat : ∀ column x, row.get? column = some (.float x) →
      Binary64.numeral? (x.text Binary64.plainLayout) = some x) :
    (∀ field ∈ row.toRecord.entries, kind.Takes field.1 field.2) ∧
      ∀ e ∈ kind.cellsOf row.toRecord.entries, row.holds e.1 e.2 = true := by
  -- A field with a column is read back as the cell that it shows.
  have hread : ∀ name v type, (name, v) ∈ row.toRecord.entries → kind.columns.get? name = some type →
      ∃ cell, Cell.coerce? v type = some cell ∧ row.holds name cell = true := by
    intro name v type hv htype
    obtain ⟨cell, hcell, rfl⟩ :=
      Row.exists_of_get?_toRecord ((SortedMap.get?_eq_some_iff row.toRecord).2 hv)
    have hcellFits : cell.Fits type := hfits name type cell htype hcell
    refine ⟨cell, Cell.coerce?_toJson hcellFits fun x hx => hfloat name x (hx ▸ hcell), ?_⟩
    unfold Row.holds
    rw [hcell]
    exact hcellFits.same_self
  constructor
  · -- A field is a list, or has no column, or fits its column.
    rintro ⟨name, v⟩ hfield
    by_cases hlist : ∃ items, v = .arr items
    · exact .inl hlist
    · refine .inr ?_
      cases htype : kind.columns.get? name with
      | none => exact .inl rfl
      | some type =>
        obtain ⟨cell, hcell, -⟩ := hread name v type hfield htype
        exact .inr ⟨cell, cellOf?_eq_some_iff.2
          ⟨fun items h => hlist ⟨items, h⟩, type, htype, hcell⟩⟩
  · -- A cell to be stored is the one that was read, as a column has one type.
    intro e he
    obtain ⟨v, hfield, hstored⟩ := mem_cellsOf_iff.1 he
    obtain ⟨-, type, htype, hstored⟩ := cellOf?_eq_some_iff.1 hstored
    obtain ⟨cell, hcell, hheld⟩ := hread e.1 v type hfield htype
    cases hstored.symm.trans hcell
    exact hheld

/-- In a reachable store, saving what a row is rendered to succeeds, answers with the row as it was, not
marked as changed, and leaves what is found in the store as it was. The cells of the row fit their
columns, and the text of each floating-point number reads back as the number. -/
theorem save_render (hs : s.Reachable) (hne : id ≠ "") (hget : s.get? kind.name id = some row)
    (hfits : ∀ column type cell, kind.columns.get? column = some type → row.get? column = some cell →
      cell.Fits type)
    (hfloat : ∀ column x, row.get? column = some (.float x) →
      Binary64.numeral? (x.text Binary64.plainLayout) = some x)
    (hc : c.session = some (.memory s)) (shown : Context) (freshId : String) :
    ∃ saved s', kind.save (row.render ∅ shown).1 c freshId = .ok (saved, .memory s') ∧
      saved = row ∧ saved.modified = false ∧
      (∀ c', (saved.render ∅ c').1 = (row.render ∅ shown).1) ∧
      ∀ kind' id', s'.get? kind' id' = s.get? kind' id' := by
  simp only [Row.fst_render_empty]
  obtain ⟨hkind, hfiled, hclean⟩ := hs.filed.of_get? hget
  -- The row is filed under its id, and the id is not the empty text.
  have hrowId : row.id? = some id := by
    cases hrow : row.id? with
    | none =>
      rw [hrow] at hfiled
      exact absurd hfiled.symm hne
    | some id' =>
      rw [hrow] at hfiled
      exact congrArg some hfiled
  -- The record leads back to the row, and filling the row with it changes nothing.
  have htarget : kind.target row.toRecord s freshId = row := by
    unfold target found?
    rw [idOf?_toRecord hne hrowId, Option.bind_some, hget]
    rfl
  obtain ⟨htakes, hholds⟩ := holds_cellsOf_toRecord hfits hfloat
  have hfilled : kind.filled row.toRecord c row = row := by
    unfold filled
    rw [Row.setMany_of_holds hholds, markPending_of_not_modified hclean]
  have hadd : s.add row = .ok { s with staged := s.staged.file id row.clean } :=
    Store.add_eq_ok_iff.2 ⟨id, hrowId, rfl⟩
  refine ⟨row, _, (save_eq_ok_iff hc).2 ⟨?_, htakes, ?_, _, hadd, rfl⟩, rfl, hclean,
    fun _ => rfl, fun kind' id' => ?_⟩
  · rw [htarget, hkind]
  · rw [htarget, hfilled]
  · rw [Store.get?_add hadd hrowId]
    split
    · -- What was filed again under the id is what was found there.
      rename_i hplace
      have hself : row.clean = row := by rw [Row.clean, ← hclean]
      rw [hplace.1, hplace.2, hkind, hget, hself]
    · rfl

/-- A kind with a column of each type and a hidden one. -/
def noteKind : Kind :=
  Kind.named "note" |>.column "title" .text |>.column "size" .int |>.column "score" .float
    |>.column "open" .bool |>.column "written" .moment |>.column "tags" .json
    |>.column "state" .text |>.column "current" .bool

/-- Two and a half. -/
def twoAndAHalf : Binary64 := .finite false 5629499534213120 (-51)

/-- A note. -/
def note : Row where
  kind := "note"
  cells := ⟨[("id", .text "n1"), ("title", .text " 7 "), ("size", .int (-3)),
    ("score", .float twoAndAHalf), ("open", .bool true),
    ("written", .moment { year := 2024, month := 2, day := 29, hour := 6, nanos := 250000000 }),
    ("tags", .json (.arr [.str "a", .null])), ("state", .null), ("current", .bool true)], by decide⟩
  modified := false

/-- A store with the note. -/
def noteStore : Store := Store.seed {} note

/-- The cells of the note fit their columns. -/
theorem fits_note (column : String) (type : ColumnType) (cell : Cell)
    (htype : noteKind.columns.get? column = some type) (hcell : note.get? column = some cell) :
    cell.Fits type := by
  have hcolumns : ∀ e ∈ note.cells.entries, ∀ type, noteKind.columns.get? e.1 = some type →
      e.2.Fits type := by
    have hcolumn : ∀ {name : String} {declared : ColumnType} {cell : Cell},
        noteKind.columns.get? name = some declared → cell.Fits declared →
        ∀ type, noteKind.columns.get? name = some type → cell.Fits type := by
      intro name declared cell hdeclared hfits type htype
      cases hdeclared.symm.trans htype
      exact hfits
    unfold note
    simp only [List.forall_mem_cons]
    -- The three cells that need more than their type: a number, a list and a date-time.
    have hscore : twoAndAHalf ≠ .nan := by decide
    have htags : Json.arr [.str "a", .null] ≠ .null := by decide
    have hvalid : Moment.IsValid ⟨2024, 2, 29, 6, 0, 0, 250000000⟩ := by decide
    have hshown : Moment.IsShown ⟨2024, 2, 29, 6, 0, 0, 250000000⟩ := by constructor <;> decide
    exact ⟨hcolumn rfl trivial, hcolumn rfl trivial, hcolumn rfl rfl, hcolumn rfl hscore,
      hcolumn rfl trivial, hcolumn rfl ⟨hvalid, hshown⟩,
      hcolumn rfl ⟨htags, trivial, trivial, trivial⟩, hcolumn (rfl : _ = some ColumnType.text) trivial,
      hcolumn rfl trivial, fun _ hmem => absurd hmem List.not_mem_nil⟩
  exact hcolumns (column, cell) (Listing.get?_eq_some_iff.1 hcell) type htype

/-- Saving what the note is rendered as changes nothing. -/
theorem save_render_note : ∃ saved s',
    noteKind.save (note.render ∅ {}).1 { session := some (.memory noteStore), pending := true } "n2" =
      .ok (saved, .memory s') ∧
    saved = note ∧ saved.modified = false ∧ (∀ c', (saved.render ∅ c').1 = (note.render ∅ {}).1) ∧
    ∀ kind' id', s'.get? kind' id' = noteStore.get? kind' id' := by
  have hfloat : ∀ column x, note.get? column = some (.float x) →
      Binary64.numeral? (x.text Binary64.plainLayout) = some x := by
    intro column x hx
    have hscore : ∀ e ∈ note.cells.entries, e.2.typeOf? = some .float → e.2 = .float twoAndAHalf := by
      decide
    cases hscore (column, .float x) (Listing.get?_eq_some_iff.1 hx) rfl
    decide +kernel
  have hreach : noteStore.Reachable := ⟨[.seed note], rfl⟩
  have hget : noteStore.get? noteKind.name "n1" = some note := rfl
  exact save_render hreach (by decide) hget fits_note hfloat rfl {} "n2"

end Kind

end FlatRecord
