import FlatRecord.Proofs.Rule.Effects
import Mathlib.Data.List.DropRight
import Mathlib.Data.List.Forall2

/-!
# Tags spread over a list

`Rule.spreadTags` reads the tags in a text or a list, adds each of them as an item with a name to another
list, and reports those that are not proper. `Rule.spreadTags_appends` says what this leaves: the record
with all that it had, the tags in order at the positions after the greatest one in use, and one message
for each tag that is not proper, behind the messages that the key had.

The tags are described without the reader: `Naming.TagsIn` takes the pieces of a text between its commas
and cuts off blanks (`Text.Strips`). The next position is above every one in use and no higher than it has
to be (`Naming.IsNextPosition`), so the keys that are written are free, and distinct for distinct tags.
-/

namespace FlatRecord

/-! ## Tags in a value -/

/-- The characters are the others without blanks at both ends. -/
def Text.Strips (cs stripped : List Char) : Prop :=
  ∃ front back, cs = front ++ stripped ++ back ∧ (∀ c ∈ front ++ back, isBlank c = true) ∧
    (∀ c ∈ stripped.head?, isBlank c = false) ∧ ∀ c ∈ stripped.getLast?, isBlank c = false

/-- Trimming takes the blanks at both ends away, and nothing else. -/
theorem Text.strips_trimBlank (cs : List Char) : Strips cs (trimBlank cs) := by
  have hback : trimBlank cs ++ (cs.dropWhile isBlank).rtakeWhile isBlank = cs.dropWhile isBlank :=
    List.rdropWhile_append_rtakeWhile
  refine ⟨cs.takeWhile isBlank, (cs.dropWhile isBlank).rtakeWhile isBlank, ?_, ?_, ?_, ?_⟩
  · rw [List.append_assoc, hback, List.takeWhile_append_dropWhile]
  · intro c hc
    rcases List.mem_append.1 hc with hc | hc
    · exact List.mem_takeWhile_imp hc
    · exact List.mem_rtakeWhile_imp hc
  · -- What is left starts as the characters do without the blanks in front.
    intro c hc
    have hhead : (cs.dropWhile isBlank).head? = some c := by
      rw [← hback, List.head?_append, Option.mem_def.1 hc, Option.some_or]
    have hfirst := List.head?_dropWhile_not isBlank cs
    rw [hhead] at hfirst
    simpa using hfirst
  · intro c hc
    obtain ⟨hne, rfl⟩ := List.mem_getLast?_eq_getLast hc
    exact Bool.eq_false_iff.2 (List.rdropWhile_last_not isBlank _ hne)

/-- Every value that was supplied has a text. -/
theorem Datum.exists_toText (v : Json) : ∃ s, (Datum.value v).toText = .ok s := by
  cases v <;> exact ⟨_, rfl⟩

namespace Naming

variable {list : String} {data : FlatData} {tags : List String} {next : Nat}

/-- The tags in a value. -/
inductive TagsIn : Json → List String → Prop where
  /-- In a text: the pieces between commas without blanks at their ends, if anything is left of them. -/
  | text {s : String} {pieces : List (List Char)}
    (h : List.Forall₂ Text.Strips (s.toList.splitOn ',') pieces) :
    TagsIn (.str s) ((pieces.filter (!·.isEmpty)).map .ofList)
  /-- In a list: the texts of the items. -/
  | list {items : List Json} {tags : List String}
    (h : List.Forall₂ (fun item tag => (Datum.value item).toText = .ok tag) items tags) :
    TagsIn (.arr items) tags

/-- The pieces between commas are those of the library's `splitOn`. -/
theorem commaPieces_eq_splitOn (cs : List Char) : commaPieces cs = cs.splitOn ',' := by
  unfold List.splitOn
  induction cs with
  | nil => rfl
  | cons c rest ih =>
    rw [commaPieces, ih, List.splitOnP_cons_eq_if_modifyHead]
    -- A comma begins a new piece; any other character goes on with the first piece of the rest.
    by_cases hc : c = ','
    · simp [hc]
    · obtain ⟨piece, pieces, hpieces⟩ :=
        List.exists_cons_of_ne_nil (List.splitOnP_ne_nil (· == ',') rest)
      simp [hc, hpieces]

/-- The tags in a text are read. -/
theorem tagsIn_str (s : String) : TagsIn (.str s) (splitTags s) := by
  have hstrips : List.Forall₂ Text.Strips (s.toList.splitOn ',')
      ((s.toList.splitOn ',').map Text.trimBlank) := by
    rw [List.forall₂_map_right_iff, List.forall₂_same]
    exact fun piece _ => Text.strips_trimBlank piece
  unfold splitTags
  rw [commaPieces_eq_splitOn]
  exact .text hstrips

/-- The tags in a list are read. -/
theorem exists_tagsIn_arr (items : List Json) :
    ∃ tags, tagsOf (.value (.arr items)) = .ok tags ∧ TagsIn (.arr items) tags := by
  suffices h : ∃ tags, (items.mapM fun item => (Datum.value item).toText) = .ok tags ∧
      List.Forall₂ (fun item tag => (Datum.value item).toText = .ok tag) items tags by
    obtain ⟨tags, hread, htags⟩ := h
    exact ⟨tags, hread, .list htags⟩
  induction items with
  | nil => exact ⟨[], rfl, .nil⟩
  | cons item rest ih =>
    obtain ⟨tag, htag⟩ := Datum.exists_toText item
    obtain ⟨tags, hread, htags⟩ := ih
    refine ⟨tag :: tags, ?_, .cons htag htags⟩
    rw [List.mapM_cons, htag, hread]
    rfl

/-! ## Faults of tags -/

/-- A tag has 2 to 100 characters, all of which tags may have. -/
def IsProperTag (tag : String) : Prop :=
  2 ≤ tag.length ∧ tag.length ≤ 100 ∧ ∀ c ∈ tag.toList, isTagChar c = true

/-- Whether a tag is proper can be computed. -/
instance (tag : String) : Decidable (IsProperTag tag) :=
  inferInstanceAs (Decidable (_ ∧ _ ∧ ∀ c ∈ tag.toList, isTagChar c = true))

/-- The message about a tag that is not proper. It is about the characters only if the length is right. -/
inductive TagMessage (tag : String) : String → Prop where
  /-- A tag of less than two characters. -/
  | short (h : tag.length < 2) :
    TagMessage tag ("Tag \"" ++ tag ++ "\" length is less than minimum 2")
  /-- A tag of more than a hundred characters. -/
  | long (h : 100 < tag.length) :
    TagMessage tag ("Tag \"" ++ tag ++ "\" length is more than maximum 100")
  /-- A tag with a character that tags do not have. -/
  | characters (hshort : 2 ≤ tag.length) (hlong : tag.length ≤ 100) {c : Char} (hc : c ∈ tag.toList)
    (h : isTagChar c = false) :
    TagMessage tag ("Tag \"" ++ tag ++ "\" must be alphanumeric characters or symbols: -_.")

/-- The wording for a tag that is too short. -/
theorem message_tagTooShort (tag : String) : (Complaint.tagTooShort tag 2).message =
    "Tag \"" ++ tag ++ "\" length is less than minimum 2" := by
  change "Tag \"" ++ tag ++ "\" length is less than minimum " ++ "2" = _
  rw [String.append_assoc]
  rfl

/-- The wording for a tag that is too long. -/
theorem message_tagTooLong (tag : String) : (Complaint.tagTooLong tag 100).message =
    "Tag \"" ++ tag ++ "\" length is more than maximum 100" := by
  change "Tag \"" ++ tag ++ "\" length is more than maximum " ++ "100" = _
  rw [String.append_assoc]
  rfl

/-- A tag that is proper has no fault, and the fault of any other tag has its message. -/
theorem tagFault?_cases (tag : String) :
    (IsProperTag tag ∧ tagFault? tag = none) ∨
      ¬ IsProperTag tag ∧ ∃ fault, tagFault? tag = some fault ∧ TagMessage tag fault.message := by
  unfold tagFault? tagLengthFault? tagCharacterFault? leastLength greatestLength
  -- The checks are made in this order: too short, too long, and then the characters.
  by_cases hshort : tag.length < 2
  · refine .inr ⟨fun h => Nat.not_lt.2 h.1 hshort, .tagTooShort tag 2, by rw [if_pos hshort]; rfl, ?_⟩
    rw [message_tagTooShort]
    exact .short hshort
  rw [if_neg hshort]
  by_cases hlong : 100 < tag.length
  · refine .inr ⟨fun h => Nat.not_lt.2 h.2.1 hlong, .tagTooLong tag 100, by rw [if_pos hlong]; rfl, ?_⟩
    rw [message_tagTooLong]
    exact .long hlong
  rw [if_neg hlong, Option.none_or]
  have hlength : 2 ≤ tag.length ∧ tag.length ≤ 100 := ⟨Nat.not_lt.1 hshort, Nat.not_lt.1 hlong⟩
  by_cases hall : tag.toList.all isTagChar = true
  · -- A character that is not allowed makes the fault.
    exact .inl ⟨⟨hlength.1, hlength.2, List.all_eq_true.1 hall⟩, if_pos hall⟩
  · obtain ⟨c, hc, hfault⟩ := List.all_eq_false.1 (Bool.eq_false_iff.2 hall)
    exact .inr ⟨fun h => hall (List.all_eq_true.2 h.2.2), .tagCharacters tag, if_neg hall,
      .characters hlength.1 hlength.2 hc (Bool.eq_false_iff.2 hfault)⟩

/-- The faults of tags have one message for each tag that is not proper, in the order of the tags. -/
theorem forall₂_tagMessage (tags : List String) :
    List.Forall₂ TagMessage (tags.filter (¬ IsProperTag ·))
      ((tags.filterMap tagFault?).map Complaint.message) := by
  induction tags with
  | nil => exact .nil
  | cons tag rest ih =>
    rcases tagFault?_cases tag with ⟨hproper, hfault⟩ | ⟨hproper, fault, hfault, hmessage⟩
    · rw [List.filter_cons_of_neg (by simpa using hproper), List.filterMap_cons_none hfault]
      exact ih
    · rw [List.filter_cons_of_pos (by simpa using hproper), List.filterMap_cons_some hfault]
      exact .cons hmessage ih

/-! ## The next position -/

/-- The position is the one after the greatest position of the list that is in use, or zero if none
is. A position is in use if a key of three segments starts with the list and the position. -/
structure IsNextPosition (list : String) (data : FlatData) (n : Nat) : Prop where
  /-- It is after those in use. -/
  above : ∀ i last, data.contains ⟨[.field list, .index i, last]⟩ = true → i < n
  /-- It is no higher than it has to be. -/
  reached : n = 0 ∨ ∃ i last, n = i + 1 ∧ data.contains ⟨[.field list, .index i, last]⟩ = true

/-- The greatest of some numbers is one of them. -/
theorem foldl_max_mem (l : List Nat) (b : Nat) : l.foldl max b = b ∨ l.foldl max b ∈ l := by
  induction l generalizing b with
  | nil => exact .inl rfl
  | cons n rest ih =>
    rw [List.foldl_cons, List.mem_cons]
    rcases ih (max b n) with h | h
    · rw [h]
      omega
    · exact .inr (.inr h)

/-- Only a key of three segments that starts with the list has a position after it. -/
theorem exists_of_positionAfter_eq_succ {key : Key} {i : Nat} (h : positionAfter list key = i + 1) :
    ∃ last, key = ⟨[.field list, .index i, last]⟩ := by
  unfold positionAfter at h
  split at h
  · -- The three segments are a list, a position and a last one, and the list must be the one asked for.
    rename_i name j last hkey
    by_cases hname : name = list
    · rw [if_pos hname] at h
      refine ⟨last, ?_⟩
      rw [← hname, ← Nat.succ.inj h, ← hkey]
    · rw [if_neg hname] at h
      cases h
  · cases h

/-- The position that the rule takes is the next one. -/
theorem isNextPosition_nextPosition (list : String) (data : FlatData) :
    IsNextPosition list data (nextPosition list data) where
  above _ _ h := lt_nextPosition h
  reached := by
    rcases foldl_max_mem (data.keys.map (positionAfter list)) 0 with h | h
    · -- Either no key stands in the list, or one stands just before the position.
      exact .inl h
    · obtain ⟨key, hkey, hnext⟩ := List.mem_map.1 h
      change positionAfter list key = nextPosition list data at hnext
      rcases Nat.eq_zero_or_eq_succ_pred (nextPosition list data) with hzero | hsucc
      · exact .inl hzero
      · rw [hsucc] at hnext
        obtain ⟨last, rfl⟩ := exists_of_positionAfter_eq_succ hnext
        exact .inr ⟨_, last, hsucc, SortedMap.mem_keys.1 hkey⟩

/-- Nothing has the key of a name from the next position on. -/
theorem IsNextPosition.free {n : Nat} (h : IsNextPosition list data n) (j : Nat) :
    data.get? (itemName list (n + j)) = none := by
  rw [← SortedMap.contains_eq_false_iff, ← Bool.not_eq_true]
  intro hused
  have habove := h.above (n + j) (.field "name") hused
  omega

/-! ## The entries of tags -/

/-- Different positions have different keys for their names. -/
theorem itemName_inj {m n : Nat} : itemName list m = itemName list n ↔ m = n := by
  simp [itemName]

/-- The entries of tags are those at the positions of the tags. -/
theorem mem_tagEntries_iff {e : Key × Datum} : e ∈ tagEntries list next tags ↔
    ∃ (j : Nat) (tag : String), tags[j]? = some tag ∧
      e = (itemName list (next + j), .ofString tag) := by
  induction tags generalizing next with
  | nil => simp [tagEntries]
  | cons tag rest ih =>
    have hnext : ∀ j, next + 1 + j = next + (j + 1) := by omega
    rw [tagEntries, List.mem_cons, ih]
    constructor
    · rintro (rfl | ⟨j, tag', htag', rfl⟩)
      · exact ⟨0, tag, rfl, rfl⟩
      · exact ⟨j + 1, tag', htag', by rw [hnext]⟩
    · rintro ⟨j, tag', htag', rfl⟩
      cases j with
      | zero =>
        cases htag'
        exact .inl rfl
      | succ j => exact .inr ⟨j, tag', htag', by rw [hnext]⟩

/-- After tags were stored at free positions, a record has what it had and the tags. -/
theorem get?_insertMany_tagEntries {k : Key} {d : Datum}
    (hfree : ∀ j, data.get? (itemName list (next + j)) = none) :
    (data.insertMany (tagEntries list next tags)).get? k = some d ↔ data.get? k = some d ∨
      ∃ (j : Nat) (tag : String), tags[j]? = some tag ∧ k = itemName list (next + j) ∧
        d = .ofString tag := by
  have hmem : (k, d) ∈ tagEntries list next tags ↔ ∃ (j : Nat) (tag : String),
      tags[j]? = some tag ∧ k = itemName list (next + j) ∧ d = .ofString tag := by
    simp only [mem_tagEntries_iff, Prod.mk.injEq]
  rw [← hmem]
  constructor
  · intro h
    exact (SortedMap.mem_or_of_get?_insertMany data h).symm
  · -- A free position had no value before.
    rintro (hold | hnew)
    · rw [SortedMap.get?_insertMany_of_not_mem data ?_, hold]
      intro hk
      obtain ⟨e, he, rfl⟩ := List.mem_map.1 hk
      obtain ⟨j, tag, -, rfl⟩ := mem_tagEntries_iff.1 he
      rw [hfree j] at hold
      cases hold
    · refine SortedMap.get?_insertMany_of_forall_eq data hnew fun d' hd' => ?_
      -- Entries with one key have one position, and so the same tag.
      obtain ⟨j, tag, htag, he⟩ := mem_tagEntries_iff.1 hnew
      obtain ⟨j', tag', htag', he'⟩ := mem_tagEntries_iff.1 hd'
      cases he
      obtain ⟨hkey, rfl⟩ := Prod.mk.inj he'
      have hj : j = j' := by
        have hpositions : next + j = next + j' := itemName_inj.1 hkey
        omega
      rw [hj, htag'] at htag
      rw [Option.some.inj htag]

/-- From one state of a record to another the tags are added to a list from a position on, and what is
wrong with them is reported under the key. -/
structure Appends (list : String) (key : Key) (tags : List String) (n : Nat) (w w' : Work) : Prop where
  /-- The positions from that one on have no names. -/
  free : ∀ j, w.data.get? (itemName list (n + j)) = none
  /-- The record keeps what it has and gets the tags as names, in order, and nothing else. -/
  data : ∀ k d, w'.data.get? k = some d ↔ w.data.get? k = some d ∨
    ∃ (j : Nat) (tag : String), tags[j]? = some tag ∧ k = itemName list (n + j) ∧ d = .ofString tag
  /-- The key gets one message for each tag that is not proper, in order, and no other key gets one. -/
  messages : ∃ more, List.Forall₂ TagMessage (tags.filter (¬ IsProperTag ·)) more ∧
    ∀ k, w'.messages.get? k =
      if k = key ∧ more ≠ [] then some ((w.messages.get? key).getD [] ++ more) else w.messages.get? k
  /-- The context stays. -/
  context : w'.context = w.context

/-- What spreading tags leaves. -/
theorem appends_spreadTags {key : Key} {w : Work} (htags : tagsOf (w.datum key) = .ok tags) :
    ∃ w', spreadTags list key w = (w', none) ∧
      Appends list key tags (nextPosition list w.data) w w' := by
  have heffect := effect_spreadTags list key w
  unfold spreadTags at heffect ⊢
  simp only [htags] at heffect ⊢
  generalize hspread : w.patch ⟨tagEntries list (nextPosition list w.data) tags, []⟩ = spread
    at heffect ⊢
  have hreports : Work.Effect (fun _ => False) (· = key) spread
      ((tags.filterMap tagFault?).foldl (fun w fault => w.report key fault.message) spread) :=
    Work.effect_foldl_report _ (by rfl) _ _
  have hfree := (isNextPosition_nextPosition list w.data).free
  -- The names are stored at free positions.
  refine ⟨_, rfl, hfree, fun k d => ?_, ⟨_, forall₂_tagMessage tags, fun k => ?_⟩, heffect.context⟩
  · rw [hreports.data_eq, ← hspread]
    exact get?_insertMany_tagEntries hfree
  · rw [Work.get?_foldl_report, ← hspread]
    simp only [ne_eq, List.map_eq_nil_iff]
    rfl

end Naming

namespace Rule

open Naming (TagsIn IsNextPosition Appends)

variable {list : String} {key : Key} {w : Work} {v : Json}

/-- Spreading the tags in a text or a list over a list only appends: every entry of the record stays, each
tag becomes the name of an item after the positions in use, and each tag that is not proper is reported
once, under the key of the value. The chain of the key goes on. -/
theorem spreadTags_appends (hvalue : w.datum key = .value v)
    (hkind : (∃ s, v = .str s) ∨ ∃ items, v = .arr items) :
    ∃ tags n w', TagsIn v tags ∧ IsNextPosition list w.data n ∧
      (spreadTags list).validator.apply key w = (w', false) ∧ Appends list key tags n w w' := by
  obtain ⟨tags, hread, htags⟩ : ∃ tags, Naming.tagsOf (.value v) = .ok tags ∧ TagsIn v tags := by
    rcases hkind with ⟨s, rfl⟩ | ⟨items, rfl⟩
    · exact ⟨_, rfl, Naming.tagsIn_str s⟩
    · exact Naming.exists_tagsIn_arr items
  rw [← hvalue] at hread
  obtain ⟨w', hspread, happends⟩ : ∃ w', Naming.spreadTags list key w = (w', none) ∧
      Appends list key tags (Naming.nextPosition list w.data) w w' := Naming.appends_spreadTags hread
  refine ⟨tags, _, w', htags, Naming.isNextPosition_nextPosition list w.data, ?_, happends⟩
  change Validator.settle key (Naming.spreadTags list key w).1 (Naming.spreadTags list key w).2 = _
  rw [hspread]
  rfl

/-- The key of a text with tags. -/
def tagKey : Key := Key.root.field "tag_string"

/-- A text with four tags and an empty piece, two of the tags not proper, in a record whose list of tags has
a name at position zero, and at position four a field that was not supplied. -/
def tagged : Work where
  data := .ofList [(tagKey, .ofString "economy, x ,,a/b,\u00a0health 2.0"),
    (Naming.itemName "tags" 0, .ofString "census"),
    (⟨[.field "tags", .index 4, .field "state"]⟩, .missing)]
  messages := .ofList [(tagKey, ["Too many tags"])]
  context := {}

/-- Four tags are appended to the three entries, and the short one and the one with a slash are reported. -/
theorem spreadTags_appends_tagged :
    tagged.datum tagKey = .value (.str "economy, x ,,a/b,\u00a0health 2.0") ∧
    (((spreadTags "tags").validator.apply tagKey tagged).1.data.entries.drop 3).map (·.2) =
      [.ofString "economy", .ofString "x", .ofString "a/b", .ofString "health 2.0"] ∧
    ((spreadTags "tags").validator.apply tagKey tagged).1.messages.get? tagKey =
      some ["Too many tags", "Tag \"x\" length is less than minimum 2",
        "Tag \"a/b\" must be alphanumeric characters or symbols: -_."] ∧
    ∃ tags n w', TagsIn (.str "economy, x ,,a/b,\u00a0health 2.0") tags ∧
      IsNextPosition "tags" tagged.data n ∧
      (spreadTags "tags").validator.apply tagKey tagged = (w', false) ∧
      Appends "tags" tagKey tags n tagged w' :=
  ⟨rfl, by decide +kernel, by decide +kernel, spreadTags_appends rfl (.inl ⟨_, rfl⟩)⟩

end Rule

end FlatRecord
