import FlatRecord.Proofs.Store.Memory

/-!
# The views of a store

Rows are looked up by their ids, listed, and searched with a filter. Behind all three views stands one
table for each kind, the visible one (`Store.visible`): the staged rows, and behind them the committed
rows. Look-ups in the store are look-ups in that table (`Store.get?_visible`), and the list of rows is the
list of its values (`Store.values_visible`). So two stores in which the same rows are found list the same
rows, in whatever order (`Store.rows_perm_of_get?_eq`), and a commit changes neither (`Store.get?_commit`).

In a reachable store every row is filed under its own id, and the three views agree
(`Store.Reachable.views_agree`).
-/

namespace FlatRecord

variable {kind id : String} {row : Row}

/-- The id under which a row is filed: its text id, or the empty text if it has none. -/
def Row.storageId (row : Row) : String := row.id?.getD ""

/-- A row with an id is filed under it. -/
theorem Row.storageId_of_id? (h : row.id? = some id) : row.storageId = id := by
  rw [storageId, h]
  rfl

/-- A row holds every cell of a filter. -/
theorem Row.isMatch_iff {filter : List (String × Cell)} :
    row.isMatch filter = true ↔ ∀ f ∈ filter, row.holds f.1 f.2 = true :=
  List.all_eq_true

/-- A row does not match a filter if it fails in one of the columns. -/
theorem Row.isMatch_eq_false_iff {filter : List (String × Cell)} :
    row.isMatch filter = false ↔ ∃ f ∈ filter, row.holds f.1 f.2 = false := by
  rw [isMatch, List.all_eq_false]
  exact exists_congr fun f => and_congr_right' (Bool.not_eq_true _).to_iff

namespace Store

variable {s s' : Store}

/-! ## The visible table -/

/-- The visible rows of a kind by their ids: the staged ones, then the committed ones that no staged row
with the same id is in front of. -/
def visible (s : Store) (kind : String) : Table :=
  (s.staged.table kind).overlay (s.committed.table kind)

/-- Rows are looked up in the visible table. -/
theorem get?_visible (s : Store) (kind id : String) : (s.visible kind).get? id = s.get? kind id := by
  rw [visible, Listing.get?_overlay, get?_eq_or]
  rfl

/-- The listed rows are those of the visible table. -/
theorem values_visible (s : Store) (kind : String) : (s.visible kind).values = s.rows kind :=
  List.map_append

/-- A row is listed when it is found under some id. -/
theorem mem_rows_iff : row ∈ s.rows kind ↔ ∃ id, s.get? kind id = some row := by
  rw [← values_visible, Listing.values, List.mem_map]
  constructor
  · rintro ⟨e, he, rfl⟩
    exact ⟨e.1, by rw [← get?_visible, Listing.get?_eq_some_iff.2 he]⟩
  · rintro ⟨id, h⟩
    rw [← get?_visible, Listing.get?_eq_some_iff] at h
    exact ⟨(id, row), h, rfl⟩

/-- There are as many listed rows as visible ones. -/
theorem length_rows (s : Store) (kind : String) : (s.rows kind).length = (s.visible kind).size := by
  rw [← values_visible]
  exact List.length_map _

/-- When the same rows of a kind are found in two stores, the same are listed, in whatever order. -/
theorem rows_perm_of_get?_eq (h : ∀ id, s.get? kind id = s'.get? kind id) :
    (s.rows kind).Perm (s'.rows kind) := by
  rw [← values_visible, ← values_visible]
  refine (Listing.perm_of_get?_eq fun id => ?_).map _
  rw [get?_visible, get?_visible, h]

/-- A commit leaves every row to be found where it was. -/
theorem get?_commit (s : Store) (kind id : String) : s.commit.get? kind id = s.get? kind id := by
  have hstaged : s.commit.staged.row? kind id = none := rfl
  rw [get?_eq_or, get?_eq_or, hstaged, Option.none_or, Layer.row?, table_commit, Listing.get?_putMany]
  rfl

/-! ## Rows under their own ids -/

/-- The visible rows are filed under their own ids. -/
theorem Filed.map_storageId_rows (h : s.Filed) (kind : String) :
    (s.rows kind).map Row.storageId = (s.visible kind).keys := by
  rw [← values_visible, Listing.values, Listing.keys, List.map_map]
  refine List.map_congr_left fun e he => ?_
  have hget : s.get? kind e.1 = some e.2 := by rw [← get?_visible, Listing.get?_eq_some_iff.2 he]
  exact (h.of_get? hget).2.1

/-- A row is found under an id when it is listed and has this id. -/
theorem Filed.get?_eq_some_iff (h : s.Filed) :
    s.get? kind id = some row ↔ row ∈ s.rows kind ∧ row.storageId = id := by
  rw [mem_rows_iff]
  constructor
  · intro hget
    exact ⟨⟨id, hget⟩, (h.of_get? hget).2.1⟩
  · rintro ⟨⟨id', hget⟩, rfl⟩
    rwa [Row.storageId, (h.of_get? hget).2.1]

/-- A filter finds the first row that holds all its cells. -/
theorem findFirst?_eq_some_iff {filter : List (String × Cell)} :
    s.findFirst? kind filter = some row ↔
      ∃ before after, s.rows kind = before ++ row :: after ∧
        (∀ f ∈ filter, row.holds f.1 f.2 = true) ∧
        ∀ other ∈ before, ∃ f ∈ filter, other.holds f.1 f.2 = false := by
  simp only [findFirst?, List.find?_eq_some_iff_append, Row.isMatch_iff, Bool.not_eq_true',
    Row.isMatch_eq_false_iff]
  constructor
  · rintro ⟨hmatch, before, after, hrows, hbefore⟩
    exact ⟨before, after, hrows, hmatch, hbefore⟩
  · rintro ⟨before, after, hrows, hmatch, hbefore⟩
    exact ⟨hmatch, before, after, hrows, hbefore⟩

/-- A filter finds no row when each of them lacks a cell. -/
theorem findFirst?_eq_none_iff {filter : List (String × Cell)} :
    s.findFirst? kind filter = none ↔
      ∀ row ∈ s.rows kind, ∃ f ∈ filter, row.holds f.1 f.2 = false := by
  simp only [findFirst?, List.find?_eq_none, Bool.not_eq_true, Row.isMatch_eq_false_iff]

/-- The three ways to ask a store for rows of a kind agree. -/
structure ViewsAgree (s : Store) (kind : String) : Prop where
  /-- No two listed rows are filed under the same id. -/
  nodup : ((s.rows kind).map Row.storageId).Nodup
  /-- A row is found under an id just when it is the listed row with this id. -/
  get?_eq_some_iff : ∀ id row, s.get? kind id = some row ↔ row ∈ s.rows kind ∧ row.storageId = id
  /-- Nothing is found under an id just when no listed row has it. -/
  get?_eq_none_iff : ∀ id, s.get? kind id = none ↔ id ∉ (s.rows kind).map Row.storageId
  /-- A filter finds the first listed row that holds all its cells. -/
  findFirst?_eq_some_iff : ∀ filter row, s.findFirst? kind filter = some row ↔
    ∃ before after, s.rows kind = before ++ row :: after ∧
      (∀ f ∈ filter, row.holds f.1 f.2 = true) ∧
      ∀ other ∈ before, ∃ f ∈ filter, other.holds f.1 f.2 = false
  /-- A filter finds nothing just when every listed row lacks one of its cells. -/
  findFirst?_eq_none_iff : ∀ filter, s.findFirst? kind filter = none ↔
    ∀ row ∈ s.rows kind, ∃ f ∈ filter, row.holds f.1 f.2 = false
  /-- The listed rows, and with them all that are found, are of the kind and not marked as changed. -/
  kind_and_clean : ∀ row ∈ s.rows kind, row.kind = kind ∧ row.modified = false

/-- In a reachable store the three views of each kind agree. -/
theorem Reachable.views_agree (hs : s.Reachable) (kind : String) : s.ViewsAgree kind := by
  have hfiled := hs.filed
  have hids := hfiled.map_storageId_rows kind
  constructor
  case nodup =>
    rw [hids]
    exact (s.visible kind).nodup
  case get?_eq_some_iff => exact fun id row => hfiled.get?_eq_some_iff
  -- An id that no row has is one under which nothing is visible.
  case get?_eq_none_iff =>
    intro id
    rw [hids, Listing.mem_keys_iff, Bool.not_eq_true, Listing.contains_eq_false_iff, get?_visible]
  case findFirst?_eq_some_iff => exact fun filter row => findFirst?_eq_some_iff
  case findFirst?_eq_none_iff => exact fun filter => findFirst?_eq_none_iff
  case kind_and_clean =>
    intro row hrow
    obtain ⟨id, hget⟩ := mem_rows_iff.1 hrow
    obtain ⟨hkind, -, hclean⟩ := hfiled.of_get? hget
    exact ⟨hkind, hclean⟩

/-- A store in which a committed row hides behind a staged one, a row has no id, rows of two kinds have
the same id, and a staged row was dropped. -/
def layeredStore : Store :=
  [.seed (page "p1" "old"), .seed { page "p0" "lost" with cells := ∅ }, .add (page "p2" "two"), .commit,
    .add (page "p3" "three"), .rollback, .add (page "p1" "new"), .seed (page "p1" "older"),
    .seed { page "p1" "other" with kind := "note" }].foldl after {}
where
  /-- A page with a title, marked as changed. -/
  page (id title : String) : Row :=
    { kind := "page"
      cells := (∅ : Listing String Cell).putMany [("id", .text id), ("title", .text title)]
      modified := true }

/-- The views agree on a store with rows in both layers, one of them without an id and one of another kind. -/
theorem views_agree_layered : layeredStore.Reachable ∧
    (layeredStore.rows "page").map Row.storageId = ["p1", "", "p2"] ∧
    (layeredStore.get? "page" "p1").bind (·.get? "title") = some (.text "new") ∧
    layeredStore.get? "page" "p3" = none ∧ layeredStore.ViewsAgree "page" := by
  have hreach : layeredStore.Reachable := ⟨_, rfl⟩
  exact ⟨hreach, rfl, rfl, rfl, hreach.views_agree "page"⟩

end Store

end FlatRecord
