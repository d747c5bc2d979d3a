import FlatRecord.Proofs.Comparison
import FlatRecord.Proofs.Moment.Latest
import FlatRecord.Proofs.SortedMap
import FlatRecord.Store.Rendering
import Mathlib.Data.List.Forall2

/-!
# Lists of rendered rows

What a list of rows is rendered to (`rendered_lists_exact`): the records of the rows that it keeps, sorted,
and a context in which the watermark alone has changed.

*Sorted* records are the given ones in ascending order of their keys, those with one key in the order given
(`SortedBy`). A context is *raised* by some times if its watermark becomes the latest of them and of the
watermark before, and nothing else changes (`Context.Raised`). To render one row raises the context by the
row's time of revision, whether a list keeps the row or not, so to render many raises it by the times of
all. What a row is rendered to does not depend on the watermark, and neither does whether it is kept; so
the records are those of the context at the start.
-/

namespace FlatRecord

universe u

variable {κ : Type u} {c c' c'' : Context} {times times' : List Moment}

/-! ## Sorting -/

/-- Sorted records are the given ones in ascending order of their keys, and those with one key are in the
order given. -/
structure SortedBy [Ord κ] (key : Record → κ) (records sorted : List Record) : Prop where
  /-- No record is lost or added. -/
  perm : sorted.Perm records
  /-- The keys ascend. -/
  ascending : sorted.Pairwise fun a b => (compare (key a) (key b)).isLE = true
  /-- The records with one key are in the order given. -/
  stable : ∀ k, (sorted.filter fun r => compare (key r) k = .eq) =
    records.filter fun r => compare (key r) k = .eq

/-- Sorting by a key whose values are in a total order sorts. -/
theorem sortedBy_sortRecords [Ord κ] [Std.TransOrd κ] (key : Record → κ) (records : List Record) :
    SortedBy key records (sortRecords key records) := by
  have htrans : ∀ a b r, (compare (key a) (key b)).isLE = true → (compare (key b) (key r)).isLE = true →
      (compare (key a) (key r)).isLE = true := fun _ _ _ => Std.TransOrd.isLE_trans
  have htotal : ∀ a b, ((compare (key a) (key b)).isLE || (compare (key b) (key a)).isLE) = true :=
    fun a b => Bool.or_eq_true_iff.2 (isLE_total (key a) (key b))
  refine ⟨List.mergeSort_perm .., List.pairwise_mergeSort htrans htotal records, fun k => ?_⟩
  -- Records whose keys compare equal are in order either way, so sorting leaves theirs.
  refine filter_mergeSort htrans htotal (fun a b ha hb => ?_) records
  have hak : compare (key a) k = .eq := of_decide_eq_true ha
  have hkb : compare k (key b) = .eq := Std.OrientedCmp.eq_symm (of_decide_eq_true hb)
  rw [Std.TransCmp.eq_trans hak hkb]
  rfl

/-! ## The watermark -/

/-- The context has the latest of its old watermark and the times as its watermark, and is otherwise as it
was. -/
def Context.Raised (c c' : Context) (times : List Moment) : Prop :=
  ∃ latest, c' = { c with watermark := latest } ∧
    Moment.IsLatest (c.watermark.toList ++ times) latest

namespace Context.Raised

/-- Without moments the watermark stays as it is. -/
theorem refl (c : Context) : c.Raised c [] := by
  refine ⟨c.watermark, rfl, ?_⟩
  rw [List.append_nil]
  exact Moment.isLatest_toList c.watermark

/-- Times that follow raise the raised context further. -/
theorem trans (h : c.Raised c' times) (h' : c'.Raised c'' times') : c.Raised c'' (times ++ times') := by
  obtain ⟨latest, rfl, hlatest⟩ := h
  obtain ⟨latest', rfl, hlatest'⟩ := h'
  refine ⟨latest', rfl, ?_⟩
  rw [← List.append_assoc]
  exact hlatest.append hlatest'

/-- One moment raises the watermark to itself at least. -/
theorem raiseWatermark (c : Context) (time : Moment) : c.Raised (c.raiseWatermark time) [time] := by
  refine ⟨_, rfl, ?_⟩
  cases c.watermark with
  | none => exact Moment.isLatest_toList (some time)
  | some current => exact Moment.isLatest_later current time

/-- The raised context does not depend on how the times are listed. -/
theorem unique (h : c.Raised c' times) (h' : c.Raised c'' times') (hperm : times.Perm times') :
    c' = c'' := by
  obtain ⟨latest, rfl, hlatest⟩ := h
  obtain ⟨latest', rfl, hlatest'⟩ := h'
  rw [hlatest.unique hlatest' fun time => (hperm.append_left _).mem_iff]

end Context.Raised

/-- To render a row raises the context by the time of revision, if the row has one. -/
theorem Row.raised_render (row : Row) (overrides : Record) (c : Context) :
    c.Raised (row.render overrides c).2 row.revised?.toList := by
  unfold Row.render
  cases row.revised? with
  | none => exact .refl c
  | some time => exact .raiseWatermark c time

/-- To render a list raises the context by the times of revision of all its rows. -/
theorem raised_renderShown (items : List ListedRow) (c : Context) :
    c.Raised (renderShown c items).2 (items.filterMap (·.row.revised?)) := by
  rw [List.filterMap_eq_flatMap_toList]
  induction items generalizing c with
  | nil => exact .refl c
  | cons item rest ih => exact (item.row.raised_render (item.overrides c) c).trans (ih _)

/-- To render a collection raises the context by the times of revision of all its rows. -/
theorem raised_renderEach (rows : List Row) (c : Context) :
    c.Raised (renderEach c rows).2 (rows.filterMap Row.revised?) := by
  rw [List.filterMap_eq_flatMap_toList]
  induction rows generalizing c with
  | nil => exact .refl c
  | cons row rest ih => exact (row.raised_render ∅ c).trans (ih _)

/-! ## The records -/

namespace ListedRow

/-- A list keeps a row in an inactive context, and in an active one if its state is `active` or `pending`,
or if it has no state. -/
def IsKept (c : Context) (item : ListedRow) : Prop :=
  c.active = true → item.row.state? ∈ [none, some "active", some "pending"]

/-- Whether an item is kept can be computed. -/
instance (c : Context) (item : ListedRow) : Decidable (item.IsKept c) :=
  inferInstanceAs (Decidable (_ → _))

/-- A row is shown as its record, with the capacity in place of the column of that name or beside the
columns if the context asks for capacities and the row comes with one. -/
def ShownAs (c : Context) (item : ListedRow) (record : Record) : Prop :=
  ∃ overrides : Record, record = (item.row.render overrides c).1 ∧
    ∀ name v, overrides.get? name = some v ↔
      c.withCapacity = true ∧ name = "capacity" ∧ ∃ capacity, item.capacity = some capacity ∧
        v = .str capacity

/-- The items that are shown are those that are kept. -/
theorem isShown_iff {item : ListedRow} : item.isShown c = true ↔ item.IsKept c := by
  unfold isShown IsKept
  cases c.active <;> cases item.row.state? <;> simp

/-- An item is shown as its row is rendered, with its overrides. -/
theorem shownAs_render (c : Context) (item : ListedRow) :
    item.ShownAs c (item.row.render (item.overrides c) c).1 := by
  refine ⟨item.overrides c, rfl, fun name v => ?_⟩
  unfold overrides
  cases c.withCapacity <;> cases item.capacity <;> simp [SortedMap.get?_insert, eq_comm (a := v)]

end ListedRow

/-- A list has the records of the rows that it shows, each as in the context at the start. -/
theorem fst_renderShown (items : List ListedRow) (c : Context) :
    (renderShown c items).1 =
      (items.filter (·.isShown c)).map fun item => (item.row.render (item.overrides c) c).1 := by
  induction items generalizing c with
  | nil => rfl
  | cons item rest ih =>
    obtain ⟨latest, hraised, -⟩ := item.row.raised_render (item.overrides c) c
    have hstep : (renderShown c (item :: rest)).1 =
        if item.isShown (item.row.render (item.overrides c) c).2 then
          (item.row.render (item.overrides c) c).1 ::
            (renderShown (item.row.render (item.overrides c) c).2 rest).1
        else (renderShown (item.row.render (item.overrides c) c).2 rest).1 := rfl
    -- The context after the step differs in the watermark, which decides about no row and is in no record.
    rw [hstep, ih, hraised, List.filter_cons]
    show (if item.isShown c = true then _ else _) = _
    split <;> rfl

/-- A collection has the records of all its rows. -/
theorem fst_renderEach (rows : List Row) (c : Context) :
    (renderEach c rows).1 = rows.map fun row => (row.render ∅ c).1 := by
  induction rows generalizing c with
  | nil => rfl
  | cons row rest ih => exact congrArg (_ :: ·) (ih _)

/-- The records of a list stand for the rows that it keeps, in their order. -/
theorem forall₂_shownAs_renderShown (items : List ListedRow) (c : Context) :
    List.Forall₂ (fun item record => item.ShownAs c record) (items.filter (·.IsKept c))
      (renderShown c items).1 := by
  have hkept : (items.filter (·.IsKept c)) = items.filter (·.isShown c) :=
    List.filter_congr fun item _ => by rw [Bool.eq_iff_iff, decide_eq_true_iff, ListedRow.isShown_iff]
  rw [fst_renderShown, hkept, List.forall₂_map_right_iff, List.forall₂_same]
  exact fun item _ => item.shownAs_render c

/-- A member of a group. -/
def Row.member (id name : String) (state revised : Cell) : Row where
  kind := "member"
  cells := Listing.putMany ∅ [("id", .text id), ("name", .text name), ("state", state),
    ("revision_timestamp", revised)]
  modified := false

/-- The members of a group; two have the same name, and one that was deleted was revised last. -/
def ListedRow.members : List ListedRow :=
  [⟨.member "m1" "bo" (.text "active") (.moment { year := 2024, month := 1, day := 1 }), some "admin"⟩,
    ⟨.member "m2" "al" (.text "deleted") (.moment { year := 2024, month := 5, day := 1 }), some "editor"⟩,
    ⟨.member "m3" "bo" .null .null, none⟩,
    ⟨.member "m4" "al" (.text "pending") (.moment { year := 2023, month := 1, day := 1 }), some "editor"⟩]

end FlatRecord
