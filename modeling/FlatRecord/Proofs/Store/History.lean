import Mathlib.Data.List.Dedup
import Mathlib.Data.List.DropRight
import FlatRecord.Proofs.Store.Views

/-!
# Runs with commits and rollbacks

A commit or a rollback settles what becomes of the rows that wait. The calls of a run after the last
settling one are its open calls (`Store.openCalls`), and everything that is staged comes from the adds among
them: the calls before them leave nothing staged (`Store.staged_run_settledCalls`). Among open calls a seed
goes to the committed layer and an add to the staged one, so neither is in the way of the other
(`Store.rollback_after`), and a rollback leads to where the run leads without its open adds
(`Store.rollback_run`). The places of the staged rows are those that the open adds name
(`Store.mem_places_run_iff`), each of them once, so the distinct ones count the staged rows.
-/

namespace FlatRecord

namespace Call

/-- Whether the call settles what becomes of the staged rows. -/
def isSettling : Call → Bool
  | commit | rollback => true
  | seed _ | add _ => false

/-- Whether the call is to stage a row. -/
def isAdd : Call → Bool
  | add _ => true
  | seed _ | commit | rollback => false

/-- The kind and the id under which the call stages a row; a row without a text id is not staged. -/
def place? : Call → Option (String × String)
  | add row => row.id?.map (row.kind, ·)
  | seed _ | commit | rollback => none

/-- A row is staged under its kind and its id. -/
theorem place?_add_eq_some_iff {row : Row} {kind id : String} :
    (add row).place? = some (kind, id) ↔ row.kind = kind ∧ row.id? = some id := by
  simp only [place?, Option.map_eq_some_iff, Prod.mk.injEq]
  constructor
  · rintro ⟨id', hid, rfl, rfl⟩
    exact ⟨rfl, hid⟩
  · rintro ⟨rfl, hid⟩
    exact ⟨id, hid, rfl, rfl⟩

end Call

/-! ## The places of a layer -/

namespace Layer

variable {l : Layer} {kind id : String}

/-- The kinds and ids under which the rows of a layer are filed. -/
def places (l : Layer) : List (String × String) := l.entries.flatMap fun e => e.2.keys.map (e.1, ·)

/-- A place of a layer has a row. -/
theorem mem_places_iff : (kind, id) ∈ l.places ↔ (l.row? kind id).isSome = true := by
  -- A kind without a table has no rows.
  have htable : (l.row? kind id).isSome = true ↔ ∃ t, l.get? kind = some t ∧ id ∈ t.keys := by
    unfold row? table
    cases l.get? kind with
    | none => exact ⟨nofun, nofun⟩
    | some t =>
      simp only [Option.getD_some, Option.some.injEq, exists_eq_left', Listing.mem_keys_iff]
      rfl
  simp only [htable, SortedMap.get?_eq_some_iff, places, List.mem_flatMap, List.mem_map,
    Prod.mk.injEq]
  constructor
  · rintro ⟨⟨kind', t⟩, he, id', hid, rfl, rfl⟩
    exact ⟨t, he, hid⟩
  · rintro ⟨t, he, hid⟩
    exact ⟨(kind, t), he, id, hid, rfl, rfl⟩

/-- No place is named twice: the tables are of different kinds, and the ids in each of them differ. -/
theorem nodup_places (l : Layer) : l.places.Nodup := by
  refine List.nodup_flatMap.2 ⟨fun e _ => ?_, ?_⟩
  · exact e.2.nodup.map fun _ _ h => (Prod.mk.inj h).2
  · refine l.sorted.imp fun {a b} hlt => ?_
    simp only [Function.onFun, List.disjoint_left, List.mem_map]
    rintro p ⟨id, -, rfl⟩ ⟨id', -, heq⟩
    exact Ascending.ne_of_lt hlt (Prod.mk.inj heq).1.symm

/-- There are as many places as rows. -/
theorem length_places (l : Layer) : l.places.length = l.rowCount := by
  have hlength (e : String × Table) : (e.2.keys.map (e.1, ·)).length = e.2.size := by
    rw [List.length_map]
    exact List.length_map _
  rw [places, List.length_flatMap, rowCount, SortedMap.values, List.foldl_map, List.sum_eq_foldl,
    List.foldl_map]
  simp only [hlength]

end Layer

/-! ## Runs -/

namespace Store

variable {s : Store} {calls : List Call} {kind id : String}

/-- The store after a run of calls, from the empty one on. -/
def run (calls : List Call) : Store := calls.foldl after {}

/-- A run with one more call is the run, and then the call. -/
theorem run_concat (calls : List Call) (call : Call) :
    run (calls ++ [call]) = (run calls).after call :=
  List.foldl_concat after {} call calls

/-- The calls up to the last one that settles what is staged. -/
def settledCalls (calls : List Call) : List Call := calls.rdropWhile (!·.isSettling)

/-- The calls after the last one that settles what is staged. -/
def openCalls (calls : List Call) : List Call := calls.rtakeWhile (!·.isSettling)

/-- The run with every add deleted that no commit or rollback comes after. -/
def withoutOpenAdds (calls : List Call) : List Call :=
  settledCalls calls ++ (openCalls calls).filter (!·.isAdd)

example (a b c d : Row) : withoutOpenAdds [.add a, .commit, .add b, .seed c, .add d] =
    [.add a, .commit, .seed c] := rfl

/-- The kinds and ids under which the open calls stage rows, in the order of the calls. -/
def openPlaces (calls : List Call) : List (String × String) := (openCalls calls).filterMap Call.place?

/-- No open call settles what is staged. -/
theorem isSettling_of_mem_openCalls {call : Call} (h : call ∈ openCalls calls) :
    call.isSettling = false := by
  simpa using List.mem_rtakeWhile_imp h

/-- A run is the part that is settled, and then the open calls. -/
theorem run_eq_foldl_openCalls (calls : List Call) :
    run calls = (openCalls calls).foldl after (run (settledCalls calls)) := by
  rw [run, run, ← List.foldl_append, settledCalls, openCalls, List.rdropWhile_append_rtakeWhile]

/-- The settled calls of a run lead to a store with nothing staged: there are none, or the last of them is
a commit or a rollback. -/
theorem staged_run_settledCalls (calls : List Call) : (run (settledCalls calls)).staged = ∅ := by
  by_cases hnil : settledCalls calls = []
  · rw [hnil]
    rfl
  · -- The open calls are dropped from the end, so the last call that is left settles.
    have hlast : ((settledCalls calls).getLast hnil).isSettling = true := by
      have h := List.rdropWhile_last_not (fun call : Call => !call.isSettling) calls hnil
      rw [Bool.not_eq_true', Bool.not_eq_false] at h
      exact h
    rw [← List.dropLast_concat_getLast hnil, run_concat]
    cases hcall : (settledCalls calls).getLast hnil with
    | seed row => rw [hcall] at hlast; cases hlast
    | add row => rw [hcall] at hlast; cases hlast
    | commit => rfl
    | rollback => rfl

/-! ### Open calls -/

/-- Behind the staged rows, which a rollback drops, an open call changes the store only if it is a seed. -/
theorem rollback_after {call : Call} (hopen : call.isSettling = false) :
    (s.after call).rollback = if call.isAdd then s.rollback else s.rollback.after call := by
  cases call with
  | seed row => rfl
  | add row =>
    show (s.after (.add row)).rollback = s.rollback
    cases hid : row.id? with
    | none => rw [after_add_of_id?_eq_none hid]
    | some id => rw [after_add_of_id? hid, rollback, rollback]
  | commit => cases hopen
  | rollback => cases hopen

/-- A rollback after open calls leads to where they lead without the adds among them. -/
theorem rollback_foldl_after (hopen : ∀ call ∈ calls, call.isSettling = false) (s : Store) :
    (calls.foldl after s).rollback = (calls.filter (!·.isAdd)).foldl after s.rollback := by
  -- The rollback moves in front of the calls, one call after the other.
  induction calls generalizing s with
  | nil => rfl
  | cons call rest ih =>
    obtain ⟨hcall, hrest⟩ := List.forall_mem_cons.1 hopen
    rw [List.foldl_cons, ih hrest, rollback_after hcall]
    cases hadd : call.isAdd with
    | true => simp [hadd]
    | false => simp [hadd]

/-- A rollback leads to where the run leads without its open adds. -/
theorem rollback_run (calls : List Call) : (run calls).rollback = run (withoutOpenAdds calls) := by
  have hsettled : (run (settledCalls calls)).rollback = run (settledCalls calls) := by
    rw [rollback, ← staged_run_settledCalls calls]
  rw [run_eq_foldl_openCalls, rollback_foldl_after fun _ => isSettling_of_mem_openCalls, hsettled,
    withoutOpenAdds, run, run, List.foldl_append]

/-- An open call stages a row in the place that it names, and leaves the others as they are. -/
theorem staged_row?_after_isSome {call : Call} (hopen : call.isSettling = false) :
    ((s.after call).staged.row? kind id).isSome = true ↔
      call.place? = some (kind, id) ∨ (s.staged.row? kind id).isSome = true := by
  cases call with
  | seed row => exact ⟨.inr, fun h => h.resolve_left nofun⟩
  | add row =>
    rw [Call.place?_add_eq_some_iff]
    cases hid : row.id? with
    -- Without an id nothing is staged, and no place is named.
    | none =>
      rw [after_add_of_id?_eq_none hid]
      exact ⟨.inr, fun h => h.resolve_left fun hplace => nomatch hplace.2⟩
    -- The added row is staged in its own place, and no other place changes.
    | some id' =>
      rw [after_add_of_id? hid, Layer.row?_file, Row.kind_clean]
      by_cases hplace : kind = row.kind ∧ id = id'
      · rw [if_pos hplace, hplace.1, hplace.2]
        exact ⟨fun _ => .inl ⟨rfl, rfl⟩, fun _ => rfl⟩
      · rw [if_neg hplace]
        refine ⟨.inr, fun h => h.resolve_left ?_⟩
        rintro ⟨hkind, hid'⟩
        exact hplace ⟨hkind.symm, (Option.some.inj hid').symm⟩
  | commit => cases hopen
  | rollback => cases hopen

/-- After open calls there is a staged row in the places that they name and where there was one. -/
theorem staged_row?_foldl_after_isSome (hopen : ∀ call ∈ calls, call.isSettling = false) (s : Store) :
    ((calls.foldl after s).staged.row? kind id).isSome = true ↔
      (kind, id) ∈ calls.filterMap Call.place? ∨ (s.staged.row? kind id).isSome = true := by
  induction calls generalizing s with
  | nil => simp
  | cons call rest ih =>
    obtain ⟨hcall, hrest⟩ := List.forall_mem_cons.1 hopen
    rw [List.foldl_cons, ih hrest, staged_row?_after_isSome hcall, ← or_assoc]
    refine or_congr_left ?_
    rw [List.mem_filterMap, List.mem_filterMap, List.exists_mem_cons_iff, or_comm]

/-- The staged rows are those in the places that the open calls name. -/
theorem mem_places_run_iff (calls : List Call) {place : String × String} :
    place ∈ (run calls).staged.places ↔ place ∈ openPlaces calls := by
  have hnone : ((run (settledCalls calls)).staged.row? place.1 place.2).isSome = false := by
    rw [staged_run_settledCalls]
    rfl
  rw [Layer.mem_places_iff, run_eq_foldl_openCalls,
    staged_row?_foldl_after_isSome fun _ => isSettling_of_mem_openCalls, hnone, openPlaces]
  simp

/-- As many rows are staged as there are distinct places among those that the open calls name. -/
theorem stagedCount_run (calls : List Call) :
    (run calls).stagedCount = (openPlaces calls).dedup.length := by
  -- Neither list names a place twice, so having the same places they are equally long.
  have hperm : (run calls).staged.places.Perm (openPlaces calls).dedup := by
    refine (List.perm_ext_iff_of_nodup (Layer.nodup_places _) (List.nodup_dedup _)).2 fun place => ?_
    rw [mem_places_run_iff, List.mem_dedup]
  rw [stagedCount, ← Layer.length_places, hperm.length_eq]

/-! ### What the calls mean after any run -/

/-- What a commit, a rollback and an add mean after a run, and how many rows wait then. -/
structure Transactional (calls : List Call) : Prop where
  /-- After a commit every look-up gives what it gave before. -/
  get?_commit : ∀ kind id, (run (calls ++ [.commit])).get? kind id = (run calls).get? kind id
  /-- After a commit the same rows of each kind are listed, in whatever order. -/
  rows_commit : ∀ kind, ((run (calls ++ [.commit])).rows kind).Perm ((run calls).rows kind)
  /-- After a commit no row waits. -/
  stagedCount_commit : (run (calls ++ [.commit])).stagedCount = 0
  /-- After a rollback every look-up gives what it gives after the run without its open adds. -/
  get?_rollback : ∀ kind id,
    (run (calls ++ [.rollback])).get? kind id = (run (withoutOpenAdds calls)).get? kind id
  /-- After a rollback the rows of each kind are listed as after the run without its open adds. -/
  rows_rollback : ∀ kind,
    (run (calls ++ [.rollback])).rows kind = (run (withoutOpenAdds calls)).rows kind
  /-- A row without a text id is refused, and the refused call leaves the store as it is. -/
  add_without_id : ∀ row : Row, row.id? = none →
    (run calls).add row = .error (.backend (row.kind ++ " row has no id")) ∧
      run (calls ++ [.add row]) = run calls
  /-- As many rows wait as there are distinct kinds and ids among those of the open adds. -/
  stagedCount_eq : (run calls).stagedCount = (openPlaces calls).dedup.length

/-- After every run a commit is invisible, a rollback erases the open adds, and the staged rows are
counted by the places of these. -/
theorem transactional_run (calls : List Call) : Transactional calls := by
  have hrollback : run (calls ++ [.rollback]) = run (withoutOpenAdds calls) :=
    (run_concat calls .rollback).trans (rollback_run calls)
  constructor
  case get?_commit =>
    intro kind id
    rw [run_concat]
    exact get?_commit (run calls) kind id
  case rows_commit =>
    intro kind
    rw [run_concat]
    exact rows_perm_of_get?_eq (get?_commit (run calls) kind)
  case stagedCount_commit =>
    rw [run_concat]
    rfl
  case get?_rollback => exact fun kind id => by rw [hrollback]
  case rows_rollback => exact fun kind => by rw [hrollback]
  case add_without_id =>
    intro row hid
    refine ⟨add_of_id?_eq_none hid (run calls), ?_⟩
    rw [run_concat, after_add_of_id?_eq_none hid]
  case stagedCount_eq => exact stagedCount_run calls

end Store

end FlatRecord
