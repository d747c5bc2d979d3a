import FlatRecord.Proofs.Validation.Locality
import FlatRecord.Proofs.Validation.Messages
import FlatRecord.Proofs.Validation.OneList

/-!
# Validating a list in parts

When all validators convert values, what a run leaves below an item of a list at the top of a record
depends on the object there only, whatever its position and whatever stands around it
(`sameItem_validateFlat`). Under the name of the list it leaves the items of the positions that the list
has (`items?_outcome`), since nothing else has that name. So a list can be validated in parts: the items
of the whole are those of the parts one after the other, and the messages are the same up to the position
(`validate_append`).
-/

namespace FlatRecord

/-! ## Outcomes -/

/-- The messages under a key, in the order in which they were recorded. -/
def Outcome.messagesAt (o : Outcome) (key : Key) : List String :=
  (o.fieldErrors.filter fun e => e.key = key).map (·.message)

/-- The messages of an outcome are those of the record under validation. -/
theorem Work.messagesAt_outcome (w : Work) (restored : List String) (key : Key) :
    (w.outcome restored).messagesAt key = (w.messages.get? key).getD [] :=
  w.messages.map_message_fieldErrors key

/-- The supplied values are those that are not missing. -/
theorem FlatData.get?_supplied (data : FlatData) (key : Key) :
    data.supplied.get? key = (data.datum key).json? := by
  have hsorted : Ascending.Sorted
      (data.entries.filterMap fun e => e.2.json?.map fun value => (e.1, value)) := by
    unfold Ascending.Sorted
    rw [List.pairwise_filterMap]
    -- Dropping entries leaves the keys ascending.
    refine List.Pairwise.imp (fun {e e'} hlt p hp p' hp' => ?_) data.sorted
    obtain ⟨v, -, rfl⟩ := Option.map_eq_some_iff.1 hp
    obtain ⟨v', -, rfl⟩ := Option.map_eq_some_iff.1 hp'
    exact hlt
  refine Option.ext fun v => ?_
  unfold FlatData.supplied FlatData.datum
  rw [SortedMap.get?_eq_some_iff, SortedMap.entries_ofList hsorted, List.mem_filterMap]
  -- An entry that is left had a value.
  constructor
  · rintro ⟨⟨k, d⟩, hmem, he⟩
    obtain ⟨value, hvalue, heq⟩ := Option.map_eq_some_iff.1 he
    cases heq
    rw [(SortedMap.get?_eq_some_iff data).2 hmem]
    exact hvalue
  · -- A value that is found is that of an entry, which is left as it has one.
    intro hv
    cases hd : data.get? key with
    | none =>
      rw [hd] at hv
      cases hv
    | some d =>
      rw [hd] at hv
      have hd' : d.json? = some v := hv
      refine ⟨(key, d), (SortedMap.get?_eq_some_iff data).1 hd, ?_⟩
      rw [hd', Option.map_some]

/-- An empty list that is put back has no items, as no list has. -/
theorem Record.items?_putBack (names : List String) (r : Record) (name : String) :
    (putBack names r).items? name = r.items? name := by
  unfold Record.items? putBack
  rw [SortedMap.get?_foldl_insertIfNew]
  by_cases hmem : name ∈ names
  · rw [if_pos hmem]
    cases r.get? name with
    | none => rfl
    | some v => rfl
  · rw [if_neg hmem]

/-! ## Runs -/

section Runs

variable {s node : Schema} {c : Context} {r r' : Record} {f f' : FlatValues} {w w' : Work}
  {list : String} {i j : Nat}

/-- Below items with the same values runs leave the same values and messages. -/
theorem sameItem_validateFlat (hs : s.Distinct) (hvalues : s.AllChains Chain.OfValues)
    (hr : r.flatten = .ok f) (hr' : r'.flatten = .ok f') (hsame : SameItem list i j f f')
    (hw : validateFlat f s c = .ok w) (hw' : validateFlat f' s c = .ok w') :
    SameItem list i j (FlatData.supplied w.data) (FlatData.supplied w'.data) ∧
      SameItem list i j w.messages w'.messages := by
  obtain ⟨a, ha, -⟩ := validateFlat_eq_ok_iff.1 hw
  obtain ⟨a', ha', -⟩ := validateFlat_eq_ok_iff.1 hw'
  have hstart := Expansion.sameItem_complete hs hr hr' hsame ha ha'
  have hfull := Expansion.sameItem_full hs hr hr' hsame
  have hrun : ∀ rest, w.datum (.inItem list i rest) = w'.datum (.inItem list j rest) ∧
      w.messages.get? (.inItem list i rest) = w'.messages.get? (.inItem list j rest) := by
    intro rest
    have hdatum : FlatData.datum a (.inItem list i rest) = FlatData.datum a' (.inItem list j rest) :=
      congrArg (Option.getD · Datum.missing) (hstart rest)
    cases hchain : (Expansion.of s f).full.get? (.inItem list i rest) with
    -- A chain at the key: both runs give what the chain makes of the value there, and the values are the
    -- same.
    | some chain =>
      obtain ⟨hvalue, hmessages⟩ := validateFlat_at hvalues ha hw hchain
      obtain ⟨hvalue', hmessages'⟩ := validateFlat_at hvalues ha' hw' ((hfull rest).symm.trans hchain)
      rw [hvalue, hmessages, hvalue', hmessages', hdatum]
      exact ⟨rfl, rfl⟩
    -- No chain at the key: it keeps what the completed record has there.
    | none =>
      obtain ⟨hdata, hmessages⟩ := validateFlat_at_none hvalues ha hw hchain
      obtain ⟨hdata', hmessages'⟩ :=
        validateFlat_at_none hvalues ha' hw' ((hfull rest).symm.trans hchain)
      unfold Work.datum
      rw [hdata, hmessages, hdata', hmessages', hstart rest]
      exact ⟨rfl, rfl⟩
  refine ⟨fun rest => ?_, fun rest => (hrun rest).2⟩
  rw [FlatData.get?_supplied, FlatData.get?_supplied]
  exact congrArg Datum.json? (hrun rest).1

/-- A run leaves values under the keys of fields and slots of the record, and in items in which the
record has an entry. -/
theorem key_of_mem_keys_supplied (hs : s.Distinct) (hvalues : s.AllChains Chain.OfValues)
    (hr : r.flatten = .ok f) (hw : validateFlat f s c = .ok w) {k : Key}
    (hk : k ∈ (FlatData.supplied w.data).keys) :
    (∃ name chain, k = Key.root.field name ∧ (name, Node.leaf chain) ∈ s.fields) ∨
      (∃ slot, k = Key.root.slot slot) ∨
      ∃ list i rest more, k = .inItem list i rest ∧ .inItem list i more ∈ f.keys := by
  obtain ⟨a, ha, -⟩ := validateFlat_eq_ok_iff.1 hw
  obtain ⟨v, hv⟩ := SortedMap.mem_keys_iff.1 hk
  -- A key directly in an object of a list begins with an item in which the record has an entry.
  have hitem : ∀ (step : String × Nat) (path : ItemPath) (last : Segment),
      s.Accepts f.keys (step :: path) → ∃ list i rest more,
        (ItemPath.key (step :: path)).push last = .inItem list i rest ∧
          .inItem list i more ∈ f.keys := by
    intro step path last hpath
    obtain ⟨more, hmore⟩ := hpath.exists_inItem
    exact ⟨step.1, step.2, ItemPath.segments path ++ [last], more, rfl, hmore⟩
  cases hchain : (Expansion.of s f).full.get? k with
  -- The key of a chain: it lies in the record or in an object of a list.
  | some chain =>
    rcases (Expansion.get?_full_iff hs hr).1 hchain with ⟨path, node, hpath, hnode, hmem⟩ | ⟨rfl, -⟩
    · cases path with
      | nil =>
        cases hnode
        rcases Schema.mem_ownEntries_iff.1 hmem with ⟨name, hfield, rfl⟩ | ⟨slot, -, -, rfl⟩
        · exact .inl ⟨name, chain, rfl, hfield⟩
        · exact .inr (.inl ⟨slot, rfl⟩)
      | cons step path =>
        obtain ⟨last, rfl, -⟩ := Schema.exists_push_of_mem_ownEntries hmem
        exact .inr (.inr (hitem step path last hpath))
    · exact .inr (.inl ⟨.junk, rfl⟩)
  -- No chain at the key, so the completed record has it, and it is one of its slots.
  | none =>
    rw [FlatData.get?_supplied, FlatData.datum, (validateFlat_at_none hvalues ha hw hchain).1] at hv
    cases hd : a.get? k with
    | none =>
      rw [hd] at hv
      cases hv
    | some d =>
      rcases Expansion.key_of_get?_complete (fieldKeys_of_flatten hr) ha hd with
        ⟨hfull, -⟩ | ⟨p, rfl, k', -, hextra⟩ | ⟨rfl, -⟩
      · rw [SortedMap.contains, hchain] at hfull
        cases hfull
      · obtain ⟨path, rfl, hpath⟩ := (contains_acceptedNodes_iff hs hr p).1 hextra.2.1
        cases path with
        | nil => exact .inr (.inl ⟨.extras, rfl⟩)
        | cons step path => exact .inr (.inr (hitem step path (.control .extras) hpath))
      · exact .inr (.inl ⟨.junk, rfl⟩)

end Runs

/-! ## Lists of objects -/

section Objects

variable {s node : Schema} {c : Context} {f : FlatValues} {w : Work} {list : String}
  {objects : List (List (String × Json))}

/-- A run over a list of objects leaves under the name of the list the items of its positions. -/
theorem items?_outcome (hs : s.Distinct) (hvalues : s.AllChains Chain.OfValues)
    (hchild : s.child? list = some node) (hname : Control.Unused list)
    (hobjects : ∀ fields ∈ objects, (Json.obj fields).Ordered)
    (hf : (Record.ofList list objects).flatten = .ok f) (hw : validateFlat f s c = .ok w)
    (restored : List String) : (w.outcome restored).data.items? list =
      some ((FlatData.supplied w.data).itemsTo list objects.length) := by
  show (putBack restored (FlatData.supplied w.data).nest).items? list = _
  rw [Record.items?_putBack]
  refine FlatValues.items?_nest (fun k hk first rest hsegments heq => ?_) fun k hk rest hsegments => ?_
  · -- A slot does not have the name of the list, and a key begins with a field or a slot.
    rcases key_of_mem_keys_supplied hs hvalues hf hw hk with
      ⟨name, chain, rfl, -⟩ | ⟨slot, rfl⟩ | ⟨list', i, rest', more, rfl, -⟩
    · cases hsegments
      exact congrArg Segment.field heq
    · cases hsegments
      exact absurd heq.symm (hname slot)
    · cases hsegments
      exact congrArg Segment.field heq
  · -- The list is declared as a sub-schema, so there is no chain for it, and what lies in it lies in an
    -- item in which the record has an entry.
    rcases key_of_mem_keys_supplied hs hvalues hf hw hk with
      ⟨name, chain, rfl, hleaf⟩ | ⟨slot, rfl⟩ | ⟨list', i, rest', more, rfl, hmore⟩
    · cases hsegments
      have hsub : (list, Node.sub node) ∈ s.fields := (Schema.child?_eq_some_iff hs).1 hchild
      rw [← hs.get?_eq_some_iff] at hleaf hsub
      rw [hleaf] at hsub
      cases hsub
    · cases hsegments
    · cases hsegments
      exact ⟨i, rest', lt_length_of_mem_keys hobjects hf hmore, rfl⟩

/-- Runs over lists that have the same object leave the same values and messages below it. -/
theorem sameItem_ofList {objects' : List (List (String × Json))} {f' : FlatValues} {w' : Work}
    {i j : Nat} (hs : s.Distinct) (hvalues : s.AllChains Chain.OfValues)
    (hobjects : ∀ fields ∈ objects, (Json.obj fields).Ordered)
    (hobjects' : ∀ fields ∈ objects', (Json.obj fields).Ordered)
    (hf : (Record.ofList list objects).flatten = .ok f)
    (hf' : (Record.ofList list objects').flatten = .ok f') (hw : validateFlat f s c = .ok w)
    (hw' : validateFlat f' s c = .ok w') (h : objects[i]? = objects'[j]?) :
    SameItem list i j (FlatData.supplied w.data) (FlatData.supplied w'.data) ∧
      SameItem list i j w.messages w'.messages :=
  sameItem_validateFlat hs hvalues hf hf' (sameItem_flatten hobjects hf hobjects' hf' h) hw hw'

section Parts

variable {xs ys : List (List (String × Json))}

/-- A list has an outcome when both of its parts have one. -/
theorem exists_validate_append_iff (hs : s.Distinct)
    (hxs : ∀ fields ∈ xs, (Json.obj fields).Ordered)
    (hys : ∀ fields ∈ ys, (Json.obj fields).Ordered) :
    (∃ o, validate (.ofList list (xs ++ ys)) s c = .ok o) ↔
      (∃ o₁, validate (.ofList list xs) s c = .ok o₁) ∧
        ∃ o₂, validate (.ofList list ys) s c = .ok o₂ := by
  have hall : ∀ fields ∈ xs ++ ys, (Json.obj fields).Ordered := List.forall_mem_append.2 ⟨hxs, hys⟩
  constructor
  · -- Each part has its objects among those of the whole.
    intro h
    constructor
    · exact exists_validate_ofList hs hxs fun fields hfields =>
        ⟨xs ++ ys, List.mem_append_left _ hfields, hall, h⟩
    · exact exists_validate_ofList hs hys fun fields hfields =>
        ⟨xs ++ ys, List.mem_append_right _ hfields, hall, h⟩
  · -- Each object of the whole is one of a part.
    rintro ⟨h₁, h₂⟩
    refine exists_validate_ofList hs hall fun fields hfields => ?_
    rcases List.mem_append.1 hfields with hfields | hfields
    · exact ⟨xs, hfields, hxs, h₁⟩
    · exact ⟨ys, hfields, hys, h₂⟩

/-- Validating a list of objects distributes over its parts: the whole has an outcome when both parts
have one; then the items of the whole are those of the first part followed by those of the second, and
an item has the messages that it has in its part. -/
theorem validate_append (hs : s.Distinct) (hvalues : s.AllChains Chain.OfValues)
    (hchild : s.child? list = some node) (hname : Control.Unused list)
    (hxs : ∀ fields ∈ xs, (Json.obj fields).Ordered)
    (hys : ∀ fields ∈ ys, (Json.obj fields).Ordered) :
    ((∃ o, validate (.ofList list (xs ++ ys)) s c = .ok o) ↔
      (∃ o₁, validate (.ofList list xs) s c = .ok o₁) ∧
        ∃ o₂, validate (.ofList list ys) s c = .ok o₂) ∧
    ∀ o o₁ o₂, validate (.ofList list (xs ++ ys)) s c = .ok o →
      validate (.ofList list xs) s c = .ok o₁ → validate (.ofList list ys) s c = .ok o₂ →
        (∃ items₁ items₂, o₁.data.items? list = some items₁ ∧ o₂.data.items? list = some items₂ ∧
          o.data.items? list = some (items₁ ++ items₂)) ∧
        ∀ i rest, o.messagesAt (.inItem list i rest) =
          if i < xs.length then o₁.messagesAt (.inItem list i rest)
          else o₂.messagesAt (.inItem list (i - xs.length) rest) := by
  have hall : ∀ fields ∈ xs ++ ys, (Json.obj fields).Ordered := List.forall_mem_append.2 ⟨hxs, hys⟩
  refine ⟨exists_validate_append_iff hs hxs hys, fun o o₁ o₂ ho ho₁ ho₂ => ?_⟩
  obtain ⟨f, w, hf, hw, rfl⟩ := validate_eq_ok_iff.1 ho
  obtain ⟨f₁, w₁, hf₁, hw₁, rfl⟩ := validate_eq_ok_iff.1 ho₁
  obtain ⟨f₂, w₂, hf₂, hw₂, rfl⟩ := validate_eq_ok_iff.1 ho₂
  -- The items of the first part stand at the same positions in the whole.
  have hfirst : ∀ i, i < xs.length →
      SameItem list i i (FlatData.supplied w.data) (FlatData.supplied w₁.data) ∧
        SameItem list i i w.messages w₁.messages := fun i hi =>
    sameItem_ofList hs hvalues hall hxs hf hf₁ hw hw₁ (List.getElem?_append_left hi)
  -- Those of the second part are moved by the length of the first.
  have hnext : ∀ i,
      SameItem list (xs.length + i) i (FlatData.supplied w.data) (FlatData.supplied w₂.data) ∧
        SameItem list (xs.length + i) i w.messages w₂.messages := by
    intro i
    refine sameItem_ofList hs hvalues hall hys hf hf₂ hw hw₂ ?_
    rw [List.getElem?_append_right (Nat.le_add_right _ _), Nat.add_sub_cancel_left]
  refine ⟨⟨_, _, items?_outcome hs hvalues hchild hname hxs hf₁ hw₁ _,
    items?_outcome hs hvalues hchild hname hys hf₂ hw₂ _, ?_⟩, fun i rest => ?_⟩
  · rw [items?_outcome hs hvalues hchild hname hall hf hw, List.length_append]
    exact congrArg some (FlatValues.itemsTo_add (fun i hi => (hfirst i hi).1) fun i => (hnext i).1)
  · -- A position in the whole is one of the first part or goes on in the second.
    simp only [Work.messagesAt_outcome]
    by_cases hi : i < xs.length
    · rw [if_pos hi, (hfirst i hi).2 rest]
    · have hsplit : xs.length + (i - xs.length) = i := by omega
      have hmessages := (hnext (i - xs.length)).2 rest
      rw [hsplit] at hmessages
      rw [if_neg hi, hmessages]

end Parts

end Objects

/-- A list whose objects have a field with a number, which is taken out if it is zero and must not be
null, and a list of their own. -/
def priced : Schema := .ofList "a" {
  fields := [("b", .sub { fields := [("d", .leaf [])] }),
    ("c", .leaf [.converter fun d => if d.isNull then .error (.invalid .notNumber) else .ok d,
      .valueContext fun d _ => .ok (if d.isEmpty && !d.isNull then .missing else d)])] }

/-- Objects that vanish, since they have nothing, a zero, or a list only, and one that does not. -/
def vanishing : List (List (String × Json)) :=
  [[], [("c", .int 0)], [("b", .arr [.obj [("e", .int 1)]])], [("c", .null)]]

/-- Objects that stay, the first one with an extra. -/
def lasting : List (List (String × Json)) := [[("c", .null), ("x", .int 2)], [("c", .int 3)]]

/-- Three objects of the first part leave nothing, and the message of the second part is moved past all four.
-/
theorem validate_append_vanishing :
    priced.Distinct ∧ priced.AllChains Chain.OfValues ∧ Control.Unused "a" ∧
    (∀ fields ∈ vanishing, (Json.obj fields).Ordered) ∧
    (∀ fields ∈ lasting, (Json.obj fields).Ordered) ∧
    ∃ o o₁ o₂, validate (.ofList "a" (vanishing ++ lasting)) priced {} = .ok o ∧
      validate (.ofList "a" vanishing) priced {} = .ok o₁ ∧
      validate (.ofList "a" lasting) priced {} = .ok o₂ ∧
      o₁.data.items? "a" = some [.obj [("c", .null)]] ∧
      o₂.data.items? "a" =
        some [.obj [("__extras", .obj [("x", .int 2)]), ("c", .null)], .obj [("c", .int 3)]] ∧
      o.messagesAt (.inItem "a" 4 [.field "c"]) = [Complaint.notNumber.message] ∧
      (∃ items₁ items₂, o₁.data.items? "a" = some items₁ ∧ o₂.data.items? "a" = some items₂ ∧
        o.data.items? "a" = some (items₁ ++ items₂)) ∧
      ∀ i rest, o.messagesAt (.inItem "a" i rest) =
        if i < vanishing.length then o₁.messagesAt (.inItem "a" i rest)
        else o₂.messagesAt (.inItem "a" (i - vanishing.length) rest) := by
  have hs : priced.Distinct := by decide
  have hvalues : priced.AllChains Chain.OfValues := by
    -- None of the three schemas has a chain in a slot.
    refine ⟨⟨⟨⟨⟨⟨nofun, trivial⟩, ?_⟩, ?_, trivial⟩, ?_⟩, trivial⟩, ?_⟩
    case refine_2 => simp [Schema.AllChainsNode, Chain.OfValues, Validator.isValueValidator]
    all_goals exact fun slot chain hchain => by cases slot <;> cases hchain
  have hname : Control.Unused "a" := by decide
  have hvanishing : ∀ fields ∈ vanishing, (Json.obj fields).Ordered := by decide
  have hlasting : ∀ fields ∈ lasting, (Json.obj fields).Ordered := by decide
  obtain ⟨o₁, ho₁⟩ : ∃ o, validate (.ofList "a" vanishing) priced {} = .ok o := ⟨_, rfl⟩
  obtain ⟨o₂, ho₂⟩ : ∃ o, validate (.ofList "a" lasting) priced {} = .ok o := ⟨_, rfl⟩
  obtain ⟨hwhole, hparts⟩ := validate_append hs hvalues rfl hname hvanishing hlasting
  obtain ⟨o, ho⟩ := hwhole.2 ⟨⟨o₁, ho₁⟩, o₂, ho₂⟩
  obtain ⟨hitems, hmessages⟩ := hparts o o₁ o₂ ho ho₁ ho₂
  refine ⟨hs, hvalues, hname, hvanishing, hlasting, o, o₁, o₂, ho, ho₁, ho₂, ?_, ?_, ?_, hitems,
    hmessages⟩
  · cases ho₁
    rfl
  · cases ho₂
    rfl
  · cases ho
    rfl

end FlatRecord
