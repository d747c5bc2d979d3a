import FlatRecord.Proofs.Store.Filling
import FlatRecord.Proofs.Store.Views

/-!
# The row that a save stores

A save touches one row or nothing (`Kind.save_touches_one_row`). It fails for one of two reasons, a field
that does not fit its column or a row that ends up without a text id, and both come before anything is
stored: the save as a sequence of steps on a session, which keeps what was stored before a failure
(`Kind.saveInPlace`), leaves the session as it was. It never fails because a row is of another kind, since
a reachable store has only rows of the kind that is asked for. When it succeeds, the row that it answers
with is found under its id, every other look-up is as before, and the columns of the row are known one by
one from the row that the save started from and the record.
-/

namespace FlatRecord

variable {kind : Kind} {record : Record} {c : Context} {s s' : Store} {row found : Row}
  {err : StoreError} {freshId : String} {session : Session}

/-! ## Fresh rows -/

/-- After one value was stored under several keys, each of these has the value. -/
theorem Listing.get?_putMany_map {α β : Type} [DecidableEq α] (l : Listing α β) (keys : List α) (v : β)
    (k : α) : (l.putMany (keys.map (·, v))).get? k = if k ∈ keys then some v else l.get? k := by
  induction keys generalizing l with
  | nil => exact (if_neg List.not_mem_nil).symm
  | cons k' rest ih =>
    show ((l.put k' v).putMany (rest.map (·, v))).get? k = _
    rw [ih, Listing.get?_put]
    simp only [List.mem_cons]
    -- A value stored later under the same key is the same.
    by_cases hrest : k ∈ rest
    · rw [if_pos hrest, if_pos (.inr hrest)]
    · rw [if_neg hrest]
      simp only [hrest, or_false]

/-- A fresh row has its id, and null in the other columns of its kind. -/
theorem Row.get?_fresh (kind : Kind) (id column : String) : (Row.fresh kind id).get? column =
    if column = idColumn then some (.text id) else (kind.columns.get? column).map fun _ => .null := by
  show (Listing.put _ idColumn (Cell.text id)).get? column = _
  rw [Listing.get?_put, Listing.get?_putMany_map]
  simp only [Listing.mem_keys_iff, Listing.contains]
  cases kind.columns.get? column <;> rfl

namespace Kind

/-! ## The row that a save starts from -/

/-- The row that a record describes is found in the store under its id. -/
theorem get?_of_found? (hs : s.Filed) (h : kind.found? record s = some found) :
    s.get? kind.name found.storageId = some found := by
  rw [found?, Option.or_eq_some_iff] at h
  rcases h with h | ⟨-, h⟩
  · obtain ⟨id, -, hget⟩ := Option.bind_eq_some_iff.1 h
    exact hs.get?_eq_some_iff.2 ⟨Store.mem_rows_iff.2 ⟨id, hget⟩, rfl⟩
  · obtain ⟨columns, -, h⟩ := List.exists_of_findSome?_eq_some h
    obtain ⟨filter, -, hfirst⟩ := Option.bind_eq_some_iff.1 h
    exact hs.get?_eq_some_iff.2 ⟨List.mem_of_find?_eq_some hfirst, rfl⟩

/-- A save starts from a row of the kind. -/
theorem kind_target (hs : s.Filed) : (kind.target record s freshId).kind = kind.name := by
  rw [target]
  cases hfound : kind.found? record s with
  | none => rfl
  | some found => exact (hs.of_get? (get?_of_found? hs hfound)).1

/-! ## Saves that fail -/

/-- The error for a field that cannot be stored: its value is no list and does not fit its column. -/
def Refuses (kind : Kind) (name : String) (value : Json) (err : StoreError) : Prop :=
  (∀ items, value ≠ .arr items) ∧ ∃ type, kind.columns.get? name = some type ∧
    Cell.coerce? value type = none ∧ err = .unfit kind.name name type (Cell.describe value)

/-- Storing a field fails when its value does not fit. -/
theorem refuses_of_storeField {name : String} {value : Json}
    (h : kind.storeField row name value = .error err) : kind.Refuses name value err := by
  -- Lists are passed over, so the value is none.
  have hlist : ∀ items, value ≠ .arr items := by
    rintro items rfl
    cases h
  rw [storeField_of_ne hlist] at h
  refine ⟨hlist, ?_⟩
  cases htype : kind.columns.get? name with
  | none =>
    rw [htype] at h
    cases h
  | some type =>
    rw [htype] at h
    dsimp only at h
    cases hcell : Cell.coerce? value type with
    | some cell =>
      rw [hcell] at h
      cases h
    | none =>
      rw [hcell] at h
      exact ⟨type, rfl, hcell, (Except.error.inj h).symm⟩

/-- Storing fields fails at the first one whose value does not fit. -/
theorem exists_refuses_of_storeFields {fields : List (String × Json)}
    (h : kind.storeFields row fields = .error err) :
    ∃ before name value after, fields = before ++ (name, value) :: after ∧
      (∀ field ∈ before, kind.Takes field.1 field.2) ∧ kind.Refuses name value err := by
  induction fields generalizing row with
  | nil => cases h
  | cons field rest ih =>
    have h : (kind.storeField row field.1 field.2 >>= fun row => kind.storeFields row rest) =
        .error err := h
    -- The first field is refused, or one of the rest, and then the first one fits.
    cases hfirst : kind.storeField row field.1 field.2 with
    | error err' =>
      rw [hfirst] at h
      cases h
      exact ⟨[], field.1, field.2, rest, rfl, nofun, refuses_of_storeField hfirst⟩
    | ok first =>
      rw [hfirst] at h
      obtain ⟨before, name, value, after, rfl, hbefore, hrefuses⟩ := ih h
      have htakes := (storeField_eq_ok_iff.1 hfirst).1
      exact ⟨field :: before, name, value, after, rfl, List.forall_mem_cons.2 ⟨htakes, hbefore⟩,
        hrefuses⟩

/-- A save fails at the first field that does not fit, or in the end because the row has no text id. -/
theorem save_eq_error (hs : s.Filed) (hc : c.session = some (.memory s))
    (h : kind.save record c freshId = .error err) :
    (∃ before name value after, record.entries = before ++ (name, value) :: after ∧
      (∀ field ∈ before, kind.Takes field.1 field.2) ∧ kind.Refuses name value err) ∨
    (kind.filled record c (kind.target record s freshId)).id? = none ∧
      err = .backend (kind.name ++ " row has no id") := by
  rw [save_memory hc, if_pos (kind_target hs)] at h
  have hkind : (kind.target record s freshId).kind = kind.name := kind_target hs
  generalize kind.target record s freshId = target at h hkind ⊢
  cases hfields : kind.storeFields target record.entries with
  | error err' =>
    rw [hfields] at h
    cases h
    exact .inl (exists_refuses_of_storeFields hfields)
  -- All fields fit, so it was the row that was not taken.
  | ok stored =>
    obtain ⟨-, rfl⟩ := storeFields_eq_ok_iff.1 hfields
    rw [hfields] at h
    have hadd : (s.add (kind.filled record c target)).map (kind.filled record c target, Session.memory ·) =
        .error err := h
    have hname : (kind.filled record c target).kind = kind.name := (kind_filled ..).trans hkind
    unfold Store.add at hadd
    cases hid : (kind.filled record c target).id? with
    | some id =>
      rw [hid] at hadd
      cases hadd
    | none =>
      rw [hid, hname] at hadd
      exact .inr ⟨rfl, (Except.error.inj hadd).symm⟩

end Kind

/-! ## Saving in place -/

/-- Steps on a session, of which any may fail. What was stored before a failure is not taken back. -/
abbrev SessionTask (α : Type) := ExceptT StoreError (StateM Session) α

namespace SessionTask

variable {α β : Type}

/-- The answer of a task, and the session after it. -/
def runOn (task : SessionTask α) (session : Session) : Except StoreError α × Session :=
  StateT.run (ExceptT.run task) session

/-- The session is at hand for each step. -/
theorem runOn_get_bind (next : Session → SessionTask β) (session : Session) :
    (get >>= next : SessionTask β).runOn session = (next session).runOn session := rfl

/-- A step that stores nothing leaves the session as it is, and when it fails it is the last one. -/
theorem runOn_lift_bind (step : Except StoreError α) (next : α → SessionTask β) (session : Session) :
    (liftM step >>= next : SessionTask β).runOn session =
      step.casesOn (fun err => (.error err, session)) fun a => (next a).runOn session := by
  cases step <;> rfl

end SessionTask

namespace Kind

/-- Saving as a sequence of steps on a session: the row is looked up in it, filled, and added to it. -/
def saveInPlace (kind : Kind) (record : Record) (c : Context) (freshId : String) :
    SessionTask Row := do
  let found ← kind.find record (← get)
  let row := found.getD (Row.fresh kind freshId)
  if row.kind ≠ kind.name then throw (.wrongKind kind.name row.kind)
  let row ← kind.storeFields row record.entries
  let row := markPending row record c
  set (← (← get).add row)
  return row

/-- Saving in place answers as saving does, and a session in which a save failed is as it was. -/
theorem runOn_saveInPlace (kind : Kind) (record : Record) (hc : c.session = some session)
    (freshId : String) : (kind.saveInPlace record c freshId).runOn session =
      match kind.save record c freshId with
      | .ok (row, after) => (.ok row, after)
      | .error err => (.error err, session) := by
  have hsession : c.requireSession = .ok session := by unfold Context.requireSession; rw [hc]
  unfold save saveInPlace
  rw [hsession, SessionTask.runOn_get_bind, SessionTask.runOn_lift_bind]
  -- Both look for the row first, and fail alike.
  cases hfind : kind.find record session with
  | error err => simp only [bind, Except.bind, hfind]
  | ok found =>
    simp only [bind, Except.bind, hfind]
    generalize found.getD (Row.fresh kind freshId) = target
    -- A row of another kind is refused before a field is stored, by both.
    by_cases hkind : target.kind = kind.name
    · rw [if_neg (not_not_intro hkind), if_neg (not_not_intro hkind)]
      cases kind.storeFields target record.entries with
      | error err => rfl
      | ok stored =>
        dsimp only
        show (liftM (session.add (markPending stored record c)) >>= _ : SessionTask Row).runOn session = _
        rw [SessionTask.runOn_lift_bind]
        cases session.add (markPending stored record c) <;> rfl
    · rw [if_pos hkind, if_pos hkind]
      rfl

/-! ## What a save touches -/

/-- What a save that succeeds has done: the row that the record is saved to was filled from it, and is found
under its id; every other look-up is as before. -/
theorem exists_of_save_eq_ok (hc : c.session = some (.memory s))
    (h : kind.save record c freshId = .ok (row, session)) :
    ∃ s' id, session = .memory s' ∧ s.add row = .ok s' ∧ row.id? = some id ∧ row.kind = kind.name ∧
      (∀ field ∈ record.entries, kind.Takes field.1 field.2) ∧
      row = kind.filled record c (kind.target record s freshId) ∧
      ∀ kind' id', s'.get? kind' id' =
        if kind' = kind.name ∧ id' = id then some row.clean else s.get? kind' id' := by
  obtain ⟨hkind, htakes, hrow, s', hadd, rfl⟩ := (save_eq_ok_iff hc).1 h
  obtain ⟨id, hid, -⟩ := Store.add_eq_ok_iff.1 hadd
  have hname : row.kind = kind.name := by rw [hrow, kind_filled, hkind]
  have hget := Store.get?_add hadd hid
  rw [hname] at hget
  exact ⟨s', id, rfl, hadd, hid, hname, htakes, hrow, hget⟩

/-- The row from which a save starts: the one that the record describes, or else a new one, with the
generated id and null in all other columns. -/
def StartsFrom (kind : Kind) (record : Record) (s : Store) (freshId : String) (start : Row) : Prop :=
  kind.find record (.memory s) = .ok (some start) ∨
    kind.find record (.memory s) = .ok none ∧ ∀ column, start.get? column =
      if column = idColumn then some (.text freshId) else (kind.columns.get? column).map fun _ => .null

/-- What a record makes of a column of a row. A declared column for which the record has a value other than
a list gets what the value becomes, or keeps what it holds if that is the same value; any other column
keeps what it holds. -/
structure Fills (kind : Kind) (record : Record) (start row : Row) (column : String) : Prop where
  /-- A value is stored in its column. -/
  stored : ∀ value type, record.get? column = some value → (∀ items, value ≠ .arr items) →
    kind.columns.get? column = some type → ∃ cell, Cell.coerce? value type = some cell ∧
      row.get? column = if start.holds column cell then start.get? column else some cell
  /-- Lists, and fields and columns without each other, are left alone. -/
  kept : record.get? column = none ∨ (∃ items, record.get? column = some (.arr items)) ∨
    kind.columns.get? column = none → row.get? column = start.get? column

/-- The row that a record is saved to is the one that it describes, or a fresh one. -/
theorem startsFrom_target (kind : Kind) (record : Record) (s : Store) (freshId : String) :
    kind.StartsFrom record s freshId (kind.target record s freshId) := by
  unfold StartsFrom target
  rw [find_memory]
  cases kind.found? record s with
  | some found => exact .inl rfl
  | none => exact .inr ⟨rfl, Row.get?_fresh kind freshId⟩

/-- A record that can be stored fills a row column by column, but for the state of a changed row in a
pending context. -/
theorem fills_filled (htakes : ∀ field ∈ record.entries, kind.Takes field.1 field.2) {column : String}
    (hstate : c.pending = true ∧ (kind.filled record c row).modified = true → column ≠ stateColumn) :
    kind.Fills record row (kind.filled record c row) column := by
  have hstate : (c.pending && (kind.filled record c row).modified) = false ∨ column ≠ stateColumn := by
    rw [← Bool.and_eq_true_iff] at hstate
    exact (Bool.eq_false_or_eq_true _).symm.imp_right hstate
  constructor
  -- The field is stored, and its cell is what the value becomes.
  case stored =>
    intro value type hvalue hlist htype
    have hfield := htakes (column, value) ((SortedMap.get?_eq_some_iff record).1 hvalue)
    obtain ⟨cell, hcell, hcoerce⟩ := hfield.exists_coerce? htype hlist
    exact ⟨cell, hcoerce, get?_filled_of_cellOf? hstate hvalue hcell⟩
  -- The field stores nothing, for one of three reasons.
  case kept =>
    intro hnone
    refine get?_filled_of_not_stored hstate fun value hvalue => ?_
    cases hcell : kind.cellOf? column value with
    | none => rfl
    | some cell =>
      obtain ⟨hlist, type, htype, -⟩ := cellOf?_eq_some_iff.1 hcell
      rcases hnone with h | ⟨items, h⟩ | h
      · cases h.symm.trans hvalue
      · exact absurd (Option.some.inj (hvalue.symm.trans h)) (hlist items)
      · cases h.symm.trans htype

/-- A save to a reachable store that fails leaves the session as it was; it fails because a field does not
fit its column or the row has no text id, and never because the row is of another kind. After a save that
succeeds, the row that it answers with is found under its id, not marked as changed, and every other
look-up is as before; each column of the row is filled from the record, but for the state of a changed row
in a pending context. -/
theorem save_touches_one_row (hs : s.Reachable) (hc : c.session = some (.memory s))
    (freshId : String) :
    (∀ err, kind.save record c freshId = .error err →
      (kind.saveInPlace record c freshId).runOn (.memory s) = (.error err, .memory s) ∧
      ((∃ name value, record.get? name = some value ∧ kind.Refuses name value err) ∨
        err = .backend (kind.name ++ " row has no id")) ∧
      ∀ expected found, err ≠ .wrongKind expected found) ∧
    ∀ row session, kind.save record c freshId = .ok (row, session) →
      ∃ s' id start, session = .memory s' ∧
        (kind.saveInPlace record c freshId).runOn (.memory s) = (.ok row, .memory s') ∧
        row.id? = some id ∧ s'.get? kind.name id = some row.clean ∧
        (∀ kind' id', ¬(kind' = kind.name ∧ id' = id) → s'.get? kind' id' = s.get? kind' id') ∧
        kind.StartsFrom record s freshId start ∧
        ∀ column, (c.pending = true ∧ row.modified = true → column ≠ stateColumn) →
          kind.Fills record start row column := by
  have hrun := runOn_saveInPlace kind record hc freshId
  constructor
  · -- A save that fails.
    intro err herr
    rw [herr] at hrun
    have hcause : (∃ name value, record.get? name = some value ∧ kind.Refuses name value err) ∨
        err = .backend (kind.name ++ " row has no id") := by
      rcases save_eq_error hs.filed hc herr with
        ⟨before, name, value, after, hentries, -, hrefuses⟩ | ⟨-, hbackend⟩
      · refine .inl ⟨name, value, (SortedMap.get?_eq_some_iff record).2 ?_, hrefuses⟩
        rw [hentries]
        exact List.mem_append_right _ List.mem_cons_self
      · exact .inr hbackend
    refine ⟨hrun, hcause, fun expected found hwrong => ?_⟩
    -- The error is one of two, and neither is that of a row of another kind.
    rcases hcause with ⟨name, value, -, -, type, -, -, hunfit⟩ | hbackend
    · cases hwrong.symm.trans hunfit
    · cases hwrong.symm.trans hbackend
  · -- A save that succeeds.
    intro row session hsave
    rw [hsave] at hrun
    obtain ⟨s', id, rfl, -, hid, -, htakes, hrow, hget⟩ := exists_of_save_eq_ok hc hsave
    refine ⟨s', id, kind.target record s freshId, rfl, hrun, hid, ?_, fun kind' id' hother => ?_,
      startsFrom_target kind record s freshId, fun column hstate => ?_⟩
    · rw [hget, if_pos ⟨rfl, rfl⟩]
    · rw [hget, if_neg hother]
    · rw [hrow] at hstate ⊢
      exact fills_filled htakes hstate

/-- Pages, told apart by their titles. -/
def pageKind : Kind :=
  Kind.named "page" |>.column "title" .text |>.column "size" .int |>.column "state" .text
    |>.column "notes" .json |>.identifiedBy ["title"]

/-- A record that gives a page a size and deletes it. -/
def sizeRecord (size : String) : Record := .ofList [("colour", .str "red"), ("links", .arr [.str "a"]),
  ("notes", .obj [("x", .null)]), ("size", .str size), ("state", .str "deleted"), ("title", .str "two")]

/-- A size that is no number leaves the session as it was; one that is changes a single page. -/
theorem save_touches_one_row_page : Store.layeredStore.Reachable ∧
    (∃ err, pageKind.save (sizeRecord "many") { session := some (.memory Store.layeredStore) } "p9" =
        .error err ∧ err.message = "cannot store 'many' in page.size (int)" ∧
      (pageKind.saveInPlace (sizeRecord "many") { session := some (.memory Store.layeredStore) }
        "p9").runOn (.memory Store.layeredStore) = (.error err, .memory Store.layeredStore)) ∧
    ∃ row s' start, pageKind.save (sizeRecord " 7 ")
        { session := some (.memory Store.layeredStore), pending := true } "p9" = .ok (row, .memory s') ∧
      s'.get? "page" "p2" = some row.clean ∧
      (∀ id, id ≠ "p2" → s'.get? "page" id = Store.layeredStore.get? "page" id) ∧
      pageKind.StartsFrom (sizeRecord " 7 ") Store.layeredStore "p9" start ∧
      ∀ column, column ≠ stateColumn → pageKind.Fills (sizeRecord " 7 ") start row column := by
  have hreach : Store.layeredStore.Reachable := ⟨_, rfl⟩
  refine ⟨hreach, ?_, ?_⟩
  · obtain ⟨err, herr, hmessage⟩ : ∃ err, pageKind.save (sizeRecord "many")
        { session := some (.memory Store.layeredStore) } "p9" = .error err ∧
        err.message = "cannot store 'many' in page.size (int)" := ⟨_, rfl, rfl⟩
    exact ⟨err, herr, hmessage, ((save_touches_one_row hreach rfl "p9").1 err herr).1⟩
  · obtain ⟨row, session, hsave, hrow⟩ : ∃ row session, pageKind.save (sizeRecord " 7 ")
        { session := some (.memory Store.layeredStore), pending := true } "p9" = .ok (row, session) ∧
        row.id? = some "p2" := ⟨_, _, rfl, rfl⟩
    obtain ⟨s', id, start, rfl, -, hid, hget, hothers, hstart, hfills⟩ :=
      (save_touches_one_row hreach rfl "p9").2 row session hsave
    obtain rfl : id = "p2" := Option.some.inj (hid.symm.trans hrow)
    exact ⟨row, s', start, hsave, hget, fun id hne => hothers "page" id fun h => hne h.2, hstart,
      fun column hne => hfills column fun _ => hne⟩

end Kind

end FlatRecord
