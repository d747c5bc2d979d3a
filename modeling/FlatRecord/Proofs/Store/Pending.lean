import FlatRecord.Proofs.Store.SavedRow

/-!
# Changed rows in a pending context

In a pending context a save never publishes a change (`Kind.save_pending`). A record that agrees with the
row which it describes leaves that row as it is, its state included. In every other case, a new row or a
row with another cell somewhere, the row that is stored has the state for pending rows, whatever its state
or that of the record. This rests on the mark of a row being exact: a reachable store hands out unmarked
rows only, and filling a row marks it just when one of its cells changes
(`Kind.modified_filled_eq_false_iff`).
-/

namespace FlatRecord

namespace Kind

variable {kind : Kind} {record : Record} {c : Context} {s : Store} {row found : Row}
  {freshId : String} {session : Session}

/-- A record agrees with a row when each field that is stored in a column becomes the cell that the row
has there. Cells are compared as values, so zero agrees with minus zero. -/
def Agrees (kind : Kind) (record : Record) (row : Row) : Prop :=
  ∀ name value type, record.get? name = some value → (∀ items, value ≠ .arr items) →
    kind.columns.get? name = some type →
      ∃ cell, Cell.coerce? value type = some cell ∧ row.holds name cell = true

/-- A record that can be stored agrees with a row that holds all its cells. -/
theorem agrees_iff (htakes : ∀ field ∈ record.entries, kind.Takes field.1 field.2) :
    kind.Agrees record row ↔ ∀ e ∈ kind.cellsOf record.entries, row.holds e.1 e.2 = true := by
  constructor
  · -- A cell of the record is what a value became, and the row holds that by agreement.
    intro h e he
    obtain ⟨value, hvalue, hcell⟩ := mem_cellsOf_record.1 he
    obtain ⟨hlist, type, htype, hcoerce⟩ := cellOf?_eq_some_iff.1 hcell
    obtain ⟨cell, hcoerce', hheld⟩ := h e.1 value type hvalue hlist htype
    cases hcoerce.symm.trans hcoerce'
    exact hheld
  · -- A value in a column becomes a cell, since the record can be stored.
    intro h name value type hvalue hlist htype
    have hfield := htakes (name, value) ((SortedMap.get?_eq_some_iff record).1 hvalue)
    obtain ⟨cell, hcell, hcoerce⟩ := hfield.exists_coerce? htype hlist
    exact ⟨cell, hcoerce, h (name, cell) (mem_cellsOf_record.2 ⟨value, hvalue, hcell⟩)⟩

/-- A changed row is deleted for now if the record says so by the text of its state. -/
theorem pendingState_eq (record : Record) : pendingState record =
    if record.get? stateColumn = some (.str "deleted") then "pending-deleted" else "pending" := by
  unfold pendingState
  cases record.get? stateColumn with
  | none => rfl
  | some value =>
    cases value <;>
      simp only [Option.bind_some, Json.str?, Option.some.injEq, Json.str.injEq, reduceCtorEq]

/-- Filling the row that a save starts from leaves it unmarked just when the record describes a row and
agrees with it. -/
theorem modified_filled_target_eq_false_iff (hs : s.Filed)
    (htakes : ∀ field ∈ record.entries, kind.Takes field.1 field.2) (c : Context) (freshId : String) :
    (kind.filled record c (kind.target record s freshId)).modified = false ↔
      ∃ found, kind.found? record s = some found ∧ kind.Agrees record found := by
  rw [modified_filled_eq_false_iff, ← agrees_iff htakes, target]
  cases hfound : kind.found? record s with
  -- Without such a row the save starts from a new one, which is marked.
  | none =>
    constructor
    · intro h
      exact absurd h.1 Bool.noConfusion
    · rintro ⟨_, h, -⟩
      cases h
  | some found =>
    -- A row of the store is not marked, so only the record can mark it.
    have hclean : found.modified = false := (hs.of_get? (get?_of_found? hs hfound)).2.2
    constructor
    · intro h
      exact ⟨found, rfl, h.2⟩
    · rintro ⟨_, h, hagrees⟩
      cases h
      exact ⟨hclean, hagrees⟩

/-- A record that is saved in a pending context to a row with which it agrees leaves everything as it is,
and answers with the row, unmarked. Any other save in a pending context stores a row with the state for
pending rows. -/
theorem save_pending (hs : s.Reachable) (hc : c.session = some (.memory s)) (hpending : c.pending = true)
    (hsave : kind.save record c freshId = .ok (row, session)) :
    ∃ s' id, session = .memory s' ∧ row.id? = some id ∧
      (∀ found, kind.find record (.memory s) = .ok (some found) → kind.Agrees record found →
        row = found ∧ row.modified = false ∧ s.get? kind.name id = some found ∧
          ∀ kind' id', s'.get? kind' id' = s.get? kind' id') ∧
      ((∀ found, kind.find record (.memory s) = .ok (some found) → ¬ kind.Agrees record found) →
        ∃ stored, s'.get? kind.name id = some stored ∧ stored.state? = some
          (if record.get? stateColumn = some (.str "deleted") then "pending-deleted" else "pending")) := by
  obtain ⟨s', id, rfl, hadd, hid, hname, htakes, hrow, hget⟩ := exists_of_save_eq_ok hc hsave
  have hmodified := modified_filled_target_eq_false_iff hs.filed htakes c freshId
  rw [find_memory]
  refine ⟨s', id, rfl, hid, fun found hfound hagrees => ?_, fun hdiffers => ?_⟩
  · -- The row agrees: it is not marked, and is stored again as it is.
    have hfound : kind.found? record s = some found := Except.ok.inj hfound
    have hclean := hmodified.2 ⟨found, hfound, hagrees⟩
    have hsame : row = found := by rw [hrow, filled_of_not_modified hclean, target, hfound]; rfl
    rw [← hrow] at hclean
    have hthere : s.get? kind.name id = some row := by
      have hthere := get?_of_found? hs.filed hfound
      rwa [← hsame, Row.storageId_of_id? hid] at hthere
    exact ⟨hsame, hclean, hsame ▸ hthere,
      Store.get?_add_of_get? hadd hid hclean (hname.symm ▸ hthere)⟩
  · -- The row differs or is new: it is marked, and gets the state for pending rows.
    have hmarked : (kind.filled record c (kind.target record s freshId)).modified = true := by
      rw [← Bool.not_eq_false, hmodified]
      rintro ⟨found, hfound, hagrees⟩
      exact hdiffers found (congrArg Except.ok hfound) hagrees
    refine ⟨row.clean, by rw [hget, if_pos ⟨rfl, rfl⟩], ?_⟩
    rw [← pendingState_eq, ← state?_filled hpending hmarked, ← hrow]
    rfl

/-- A pending context on a store with pages. -/
def reviewContext : Context := { session := some (.memory Store.layeredStore), pending := true }

/-- A page that stays as it was is not marked; one that is deleted and one that is new are. -/
theorem save_pending_page : Store.layeredStore.Reachable ∧
    (∃ row s', pageKind.save (.ofList [("title", .str "two")]) reviewContext "p9" =
        .ok (row, .memory s') ∧
      row.modified = false ∧ Store.layeredStore.get? "page" "p2" = some row ∧
      ∀ kind id, s'.get? kind id = Store.layeredStore.get? kind id) ∧
    (∃ row s' stored, pageKind.save (sizeRecord " 7 ") reviewContext "p9" = .ok (row, .memory s') ∧
      s'.get? "page" "p2" = some stored ∧ stored.state? = some "pending-deleted") ∧
    ∃ row s' stored, pageKind.save (.ofList [("state", .str "active"), ("title", .str "four")])
        reviewContext "p9" = .ok (row, .memory s') ∧
      s'.get? "page" "p9" = some stored ∧ stored.state? = some "pending" := by
  have hreach : Store.layeredStore.Reachable := ⟨_, rfl⟩
  refine ⟨hreach, ?same, ?changed, ?new⟩
  case same =>
    obtain ⟨row, session, hsave, hid, hfind, hheld⟩ : ∃ row session,
        pageKind.save (.ofList [("title", .str "two")]) reviewContext "p9" = .ok (row, session) ∧
        row.id? = some "p2" ∧
        pageKind.find (.ofList [("title", .str "two")]) (.memory Store.layeredStore) =
          .ok (some row) ∧
        row.holds "title" (.text "two") = true := ⟨_, _, rfl, rfl, rfl, rfl⟩
    -- The one value of the record is a title, which the row has already.
    have htakes := ((save_eq_ok_iff rfl).1 hsave).2.1
    have hagrees : pageKind.Agrees (.ofList [("title", .str "two")]) row :=
      (agrees_iff htakes).2 (List.forall_mem_singleton.2 hheld)
    obtain ⟨s', id, rfl, hid', hsame, -⟩ := save_pending hreach rfl rfl hsave
    obtain rfl : id = "p2" := Option.some.inj (hid'.symm.trans hid)
    obtain ⟨-, hclean, hget, hothers⟩ := hsame row hfind hagrees
    exact ⟨row, s', hsave, hclean, hget, hothers⟩
  case changed =>
    obtain ⟨row, session, hsave, hid, found, hfind, hheld⟩ : ∃ row session,
        pageKind.save (sizeRecord " 7 ") reviewContext "p9" = .ok (row, session) ∧
        row.id? = some "p2" ∧ ∃ found,
        pageKind.find (sizeRecord " 7 ") (.memory Store.layeredStore) = .ok (some found) ∧
        found.holds "size" (.int 7) = false := ⟨_, _, rfl, rfl, _, rfl, rfl⟩
    obtain ⟨s', id, rfl, hid', -, hstored⟩ := save_pending hreach rfl rfl hsave
    obtain rfl : id = "p2" := Option.some.inj (hid'.symm.trans hid)
    -- The row has another size than the record.
    obtain ⟨stored, hget, hstate⟩ := hstored fun found' hfind' hagrees => by
      cases hfind.symm.trans hfind'
      obtain ⟨cell, hcell, hheld'⟩ := hagrees "size" (.str " 7 ") .int rfl nofun rfl
      cases hcell.symm.trans (show _ = some (Cell.int 7) from rfl)
      cases hheld.symm.trans hheld'
    exact ⟨row, s', stored, hsave, hget, hstate.trans (congrArg some (if_pos rfl))⟩
  case new =>
    obtain ⟨row, session, hsave, hid, hfind⟩ : ∃ row session,
        pageKind.save (.ofList [("state", .str "active"), ("title", .str "four")]) reviewContext
          "p9" = .ok (row, session) ∧ row.id? = some "p9" ∧
        pageKind.find (.ofList [("state", .str "active"), ("title", .str "four")])
          (.memory Store.layeredStore) = .ok none := ⟨_, _, rfl, rfl, rfl⟩
    obtain ⟨s', id, rfl, hid', -, hstored⟩ := save_pending hreach rfl rfl hsave
    obtain rfl : id = "p9" := Option.some.inj (hid'.symm.trans hid)
    -- No page has the title, so there is none to agree with.
    obtain ⟨stored, hget, hstate⟩ := hstored fun found hfind' => by cases hfind.symm.trans hfind'
    exact ⟨row, s', stored, hsave, hget, hstate.trans (congrArg some (if_neg (by decide)))⟩

end Kind

end FlatRecord
