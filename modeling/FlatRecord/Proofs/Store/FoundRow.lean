import FlatRecord.Proofs.Store.SavedRow

/-!
# Saving over a row that was found

How many rows of a kind are visible after a save to a row that the record describes. The row that is
stored takes the place of the row with its id, so there are as many as before when a row with this id was
there, and else one more (`Store.length_rows_add`); a commit leaves the number as it is
(`Store.length_rows_commit`).

The stored row has the id of the row that was found if the record led there by its id, or has no id to
store (`Kind.id_eq_of_keepsId`). Then the row is updated. A record that was recognised by its unique
columns may bring an id of its own, and the row that was found stays under the old one
(`Kind.length_rows_save_found`): from then on two rows agree in the unique columns
(`Kind.save_found_leaves_two_rows`).
-/

namespace FlatRecord

namespace Store

variable {s s' : Store} {row : Row} {id : String}

/-- An added row takes the place of the visible row with its id, or is one more. -/
theorem length_rows_add (h : s.add row = .ok s') (hid : row.id? = some id) :
    (s'.rows row.kind).length =
      (s.rows row.kind).length + if (s.get? row.kind id).isSome then 0 else 1 := by
  -- Under each id the new view has what putting the row into the old view gives.
  have hvisible : (s'.visible row.kind).entries.Perm
      ((s.visible row.kind).put id row.clean).entries := by
    refine Listing.perm_of_get?_eq fun id' => ?_
    rw [get?_visible, get?_add h hid, Listing.get?_put, get?_visible]
    simp only [true_and]
  have hsize := hvisible.length_eq.trans (Listing.size_put (s.visible row.kind) id row.clean)
  rw [length_rows, length_rows, Listing.size, hsize, Listing.contains, get?_visible]
  split <;> rfl

/-- A commit leaves the number of visible rows as it is. -/
theorem length_rows_commit (s : Store) (kind : String) :
    (s.commit.rows kind).length = (s.rows kind).length :=
  (rows_perm_of_get?_eq (get?_commit s kind)).length_eq

end Store

namespace Kind

variable {kind : Kind} {record : Record} {c : Context} {s : Store} {row found : Row}
  {id freshId : String} {session : Session}

/-- The record led to the row by its id, or stores no id. -/
def KeepsId (kind : Kind) (record : Record) (s : Store) (found : Row) : Prop :=
  (∃ id, idOf? record = some id ∧ s.get? kind.name id = some found) ∨
    ∀ value, record.get? idColumn = some value → kind.cellOf? idColumn value = none

/-- A row keeps its id when it is filled from a record that led to it by this id, or stores no id. -/
theorem id_eq_of_keepsId (hs : s.Filed) (htakes : ∀ field ∈ record.entries, kind.Takes field.1 field.2)
    (hkeeps : kind.KeepsId record s found) (hid : (kind.filled record c found).id? = some id) :
    id = found.storageId := by
  have hstate : idColumn ≠ stateColumn := by decide
  -- A record that stores no id leaves the id of the row alone.
  have hnone (h : ∀ value, record.get? idColumn = some value → kind.cellOf? idColumn value = none) :
      id = found.storageId := by
    rw [Row.id?, get?_filled_of_not_stored (.inr hstate) h] at hid
    exact (Row.storageId_of_id? hid).symm
  rcases hkeeps with ⟨id', hrecord, hget⟩ | h
  · -- The record has led to the row by the id, which is stored if the kind has a column for it.
    cases htype : kind.columns.get? idColumn with
    | none =>
      refine hnone fun value _ => ?_
      cases hcell : kind.cellOf? idColumn value with
      | none => rfl
      | some cell =>
        obtain ⟨-, type, htype', -⟩ := cellOf?_eq_some_iff.1 hcell
        cases htype.symm.trans htype'
    | some type =>
      rw [id?_filled ⟨type, htype⟩ htakes hrecord hid]
      exact (hs.of_get? hget).2.1.symm
  · exact hnone h

/-- A save to a row that the record describes leaves as many visible rows of the kind as there were,
before and after a commit, if the record led to the row by its id or stores no id. In general there is one
row more when no row had the id of the stored row; and the row that was found stays visible under its own
id, unless that is the id of the stored row. -/
theorem length_rows_save_found (hs : s.Reachable) (hc : c.session = some (.memory s))
    (hfound : kind.find record (.memory s) = .ok (some found))
    (hsave : kind.save record c freshId = .ok (row, session)) :
    ∃ s' id, session = .memory s' ∧ row.id? = some id ∧
      (s'.commit.rows kind.name).length = (s'.rows kind.name).length ∧
      (s'.rows kind.name).length =
        (s.rows kind.name).length + (if (s.get? kind.name id).isSome then 0 else 1) ∧
      (kind.KeepsId record s found →
        id = found.storageId ∧ (s'.rows kind.name).length = (s.rows kind.name).length) ∧
      (id ≠ found.storageId → s'.get? kind.name found.storageId = some found) := by
  obtain ⟨s', id, rfl, hadd, hid, hname, htakes, hrow, hget⟩ := exists_of_save_eq_ok hc hsave
  have hfound : kind.found? record s = some found :=
    Except.ok.inj ((find_memory kind record s).symm.trans hfound)
  have hthere := get?_of_found? hs.filed hfound
  rw [target, hfound, Option.getD_some] at hrow
  have hlength := Store.length_rows_add hadd hid
  rw [hname] at hlength
  refine ⟨s', id, rfl, hid, Store.length_rows_commit s' kind.name, hlength, fun hkeeps => ?_,
    fun hne => ?_⟩
  · -- The id of the stored row is that of the row found, which was there.
    have hsame : id = found.storageId := id_eq_of_keepsId hs.filed htakes hkeeps (hrow ▸ hid)
    rw [hsame, hthere] at hlength
    exact ⟨hsame, hlength⟩
  · rw [hget, if_neg fun h => hne h.2.symm]
    exact hthere

/-- A record with the title of a page is saved to that page, and the number of pages stays the same. -/
theorem length_rows_save_found_page : Store.layeredStore.Reachable ∧
    ∃ found row s', pageKind.find (sizeRecord "7") (.memory Store.layeredStore) = .ok (some found) ∧
      pageKind.save (sizeRecord "7") { session := some (.memory Store.layeredStore) } "p9" =
        .ok (row, .memory s') ∧
      (s'.rows "page").length = (Store.layeredStore.rows "page").length ∧
      (s'.commit.rows "page").length = (Store.layeredStore.rows "page").length := by
  have hreach : Store.layeredStore.Reachable := ⟨_, rfl⟩
  obtain ⟨found, row, session, hfind, hsave⟩ : ∃ found row session,
      pageKind.find (sizeRecord "7") (.memory Store.layeredStore) = .ok (some found) ∧
      pageKind.save (sizeRecord "7") { session := some (.memory Store.layeredStore) } "p9" =
        .ok (row, session) := ⟨_, _, _, rfl, rfl⟩
  obtain ⟨s', id, rfl, -, hcommit, -, hkeeps, -⟩ := length_rows_save_found hreach rfl hfind hsave
  obtain ⟨-, hlength⟩ := hkeeps (.inr fun value hvalue => by cases hvalue)
  exact ⟨hreach, found, row, s', hfind, hsave, hlength, hcommit.trans hlength⟩

/-- A page is recognised by its title, but the record has an id of its own: the page is stored under the
new id, and the old page with the same title stays, before and after a commit. -/
theorem save_found_leaves_two_rows : Store.layeredStore.Reachable ∧
    ∃ found row s',
      pageKind.find (.ofList [("id", .str "p5"), ("title", .str "two")])
        (.memory Store.layeredStore) = .ok (some found) ∧
      pageKind.save (.ofList [("id", .str "p5"), ("title", .str "two")])
        { session := some (.memory Store.layeredStore) } "p9" = .ok (row, .memory s') ∧
      (Store.layeredStore.rows "page").length = 3 ∧ (s'.rows "page").length = 4 ∧
      (s'.commit.rows "page").length = 4 ∧ s'.get? "page" "p2" = some found ∧
      s'.get? "page" "p5" = some row.clean ∧ found.get? "title" = row.get? "title" :=
  ⟨⟨_, rfl⟩, _, _, _, rfl, rfl, rfl, rfl, rfl, rfl, rfl, rfl⟩

end Kind

end FlatRecord
