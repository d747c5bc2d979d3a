import FlatRecord.Proofs.Rule.Effects
import Mathlib.Data.Finset.Card
import Mathlib.Data.List.Sort
import Mathlib.Logic.Equiv.Basic

/-!
# Texts that items share

`Rule.duplicateKey` counts the texts that the live items of a list have in a field and reports each text
that was counted more than once. `Lookup.IsShared` says the same of a text without counting: two positions
hold live items with it. The two agree because the entries of a record have different keys, so an item is
counted once (`Lookup.one_lt_count_liveTexts_iff`).

`Rule.duplicateKey_exact` adds what the rule leaves alone, and that nothing depends on the positions of the
items: moving them, in any order and with any gaps, changes no message.
-/

namespace FlatRecord.Lookup

variable {list field text : String} {data data' : FlatData} {i : Nat}

/-! ## Live items -/

/-- The key of a field of an item of a list. -/
def itemField (list : String) (position : Nat) (field : String) : Key :=
  ⟨[.field list, .index position, .field field]⟩

/-- The list has an item at the position with the text in the field, and the item is not marked as
deleted: the mark is not there or not filled in. -/
def IsLive (list field : String) (data : FlatData) (i : Nat) (text : String) : Prop :=
  (∃ v, data.get? (itemField list i field) = some (.value v) ∧ (Datum.value v).toText = .ok text) ∧
    ∀ d, data.get? (itemField list i "deleted") = some d → d.isEmpty = true

/-- Live items at two positions have the text in the field. -/
def IsShared (list field : String) (data : FlatData) (text : String) : Prop :=
  ∃ i j, i ≠ j ∧ IsLive list field data i text ∧ IsLive list field data j text

/-- The text that an entry adds to those of live items. -/
def liveText? (list field : String) (data : FlatData) (entry : Key × Datum) : Option String :=
  match entry.1.segments with
  | [.field l, .index i, .field f] =>
    let deleted := (data.get? ⟨[.field l, .index i, .field "deleted"]⟩).getD .missing
    if l = list && f = field && deleted.isEmpty then entry.2.toText.toOption else none
  | _ => none

/-- The live texts are collected entry by entry. -/
theorem liveTexts_eq_filterMap (list field : String) (data : FlatData) :
    liveTexts list field data = data.entries.filterMap (liveText? list field data) := rfl

/-- A value that was not supplied is not filled in. -/
theorem isEmpty_getD_iff (d : Option Datum) :
    (d.getD .missing).isEmpty = true ↔ ∀ d', d = some d' → d'.isEmpty = true := by
  cases d <;> simp [Datum.isEmpty]

/-- Only a supplied value has a text. -/
theorem toOption_toText_eq_some_iff {d : Datum} : d.toText.toOption = some text ↔
    ∃ v, d = .value v ∧ (Datum.value v).toText = .ok text := by
  cases d with
  | missing => exact ⟨nofun, nofun⟩
  | value v => cases h : (Datum.value v).toText <;> simp [h, Except.toOption]

/-- An entry adds a text when it is the field of a live item. -/
theorem liveText?_eq_some_iff {k : Key} {d : Datum} (hentry : (k, d) ∈ data.entries) :
    liveText? list field data (k, d) = some text ↔
      ∃ i, k = itemField list i field ∧ IsLive list field data i text := by
  have hget : data.get? k = some d := (SortedMap.get?_eq_some_iff data).2 hentry
  constructor
  · intro h
    unfold liveText? at h
    split at h
    · -- A field directly in an item of some list.
      rename_i l i f hsegments
      have hkey : k = itemField l i f := congrArg Key.mk hsegments
      dsimp only at h
      split at h
      · -- It is the list and the field asked for, and the item is not deleted.
        rename_i hcond
        simp only [Bool.and_eq_true, decide_eq_true_eq, isEmpty_getD_iff] at hcond
        obtain ⟨⟨rfl, rfl⟩, hdeleted⟩ := hcond
        obtain ⟨v, rfl, htext⟩ := toOption_toText_eq_some_iff.1 h
        exact ⟨i, hkey, ⟨v, hkey ▸ hget, htext⟩, hdeleted⟩
      · cases h
    · cases h
  · rintro ⟨i, rfl, ⟨v, hv, htext⟩, hdeleted⟩
    obtain rfl : d = .value v := Option.some.inj (hget.symm.trans hv)
    have hempty : ((data.get? (itemField list i "deleted")).getD .missing).isEmpty = true :=
      (isEmpty_getD_iff _).2 hdeleted
    unfold itemField at hempty
    simp [liveText?, itemField, hempty, htext, Except.toOption]

/-! ## Counting -/

/-- In a list without repetition two members are needed for a length of more than one. -/
theorem one_lt_length_iff {α : Type} [DecidableEq α] {l : List α} (h : l.Nodup) :
    1 < l.length ↔ ∃ a ∈ l, ∃ b ∈ l, a ≠ b := by
  rw [← List.toFinset_card_of_nodup h, Finset.one_lt_card]
  simp only [List.mem_toFinset]

/-- A text is counted more than once when two live items share it. -/
theorem one_lt_count_liveTexts_iff :
    1 < (liveTexts list field data).count text ↔ IsShared list field data text := by
  have hnodup : (data.entries.filter fun e => liveText? list field data e == some text).Nodup :=
    (List.Nodup.of_map Prod.fst data.nodup_keys).filter _
  -- The counted entries are those of the live items with the text.
  have hmem : ∀ e, (e ∈ data.entries.filter fun e => liveText? list field data e == some text) ↔
      e ∈ data.entries ∧ ∃ i, e.1 = itemField list i field ∧ IsLive list field data i text := by
    intro e
    rw [List.mem_filter, beq_iff_eq]
    exact and_congr_right fun he => liveText?_eq_some_iff he
  rw [liveTexts_eq_filterMap, List.count_filterMap, List.countP_eq_length_filter,
    one_lt_length_iff hnodup]
  simp only [hmem]
  constructor
  · rintro ⟨a, ⟨ha, i, hai, hi⟩, b, ⟨hb, j, hbj, hj⟩, hne⟩
    refine ⟨i, j, ?_, hi, hj⟩
    rintro rfl
    -- With one position the entries have one key, and so one value.
    have hkeys : a.1 = b.1 := hai.trans hbj.symm
    have hb' : (a.1, b.2) ∈ data.entries := hkeys ▸ hb
    exact hne (Prod.ext hkeys (Ascending.eq_of_mem_of_mem data.sorted ha hb'))
  · -- Items at two positions have two entries, each counted once.
    rintro ⟨i, j, hne, hi, hj⟩
    obtain ⟨⟨v, hv, -⟩, -⟩ := id hi
    obtain ⟨⟨v', hv', -⟩, -⟩ := id hj
    refine ⟨_, ⟨(SortedMap.get?_eq_some_iff data).1 hv, i, rfl, hi⟩,
      _, ⟨(SortedMap.get?_eq_some_iff data).1 hv', j, rfl, hj⟩, fun h => hne ?_⟩
    simpa [itemField] using congrArg Prod.fst h

/-- Counting gives each text the number of times it occurs. -/
theorem get?_countTexts (texts : List String) (text : String) :
    (countTexts texts).get? text = if text ∈ texts then some (texts.count text) else none := by
  -- The counts go on from those that are there.
  suffices h : ∀ counts : SortedMap String Nat,
      (texts.foldl (fun counts t => counts.alter t fun n => some (n.getD 0 + 1)) counts).get? text =
        if text ∈ texts then some ((counts.get? text).getD 0 + texts.count text)
        else counts.get? text by
    unfold countTexts
    simpa using h ∅
  induction texts with
  | nil => intro counts; rfl
  | cons t rest ih =>
    intro counts
    rw [List.foldl_cons, ih, SortedMap.get?_alter_eq]
    by_cases ht : text = t
    · subst ht
      by_cases hrest : text ∈ rest
      · simp [hrest]
        omega
      · simp [hrest, List.count_eq_zero.2 hrest]
    · -- Another text is counted as often as in the rest.
      simp [ht, List.count_cons_of_ne (Ne.symm ht)]

/-! ## Shared texts -/

/-- The texts that are reported, in their order. -/
def sharedTexts (list field : String) (data : FlatData) : List String :=
  ((countTexts (liveTexts list field data)).filter fun _ count => count > 1).keys

/-- The texts reported are those shared. -/
theorem mem_sharedTexts_iff : text ∈ sharedTexts list field data ↔ IsShared list field data text := by
  unfold sharedTexts
  simp only [SortedMap.mem_keys_iff, SortedMap.get?_filter_eq_some_iff, get?_countTexts,
    decide_eq_true_eq]
  rw [← one_lt_count_liveTexts_iff]
  constructor
  · rintro ⟨count, hcount, hone⟩
    split at hcount
    · cases hcount
      exact hone
    · cases hcount
  · intro hone
    have hmem : text ∈ liveTexts list field data := List.count_pos_iff.1 (by omega)
    exact ⟨_, if_pos hmem, hone⟩

/-- They are reported in ascending order. -/
theorem pairwise_sharedTexts (list field : String) (data : FlatData) :
    (sharedTexts list field data).Pairwise (· < ·) :=
  (SortedMap.pairwise_keys _).imp fun h => compareOfLessAndEq_eq_lt.1 h

/-- One record has the items of another at other positions, as far as the field and the mark of deleted
items go. -/
def Moved (list field : String) (place : Equiv.Perm Nat) (data data' : FlatData) : Prop :=
  ∀ i, data'.get? (itemField list (place i) field) = data.get? (itemField list i field) ∧
    data'.get? (itemField list (place i) "deleted") = data.get? (itemField list i "deleted")

variable {place : Equiv.Perm Nat}

/-- Where a list was moved, its items are live in their new places. -/
theorem Moved.isLive_iff (h : Moved list field place data data') :
    IsLive list field data' (place i) text ↔ IsLive list field data i text := by
  unfold IsLive
  rw [(h i).1, (h i).2]

/-- Items at other positions share the same texts. -/
theorem Moved.isShared_iff (h : Moved list field place data data') :
    IsShared list field data' text ↔ IsShared list field data text := by
  constructor
  · rintro ⟨i, j, hne, hi, hj⟩
    rw [← place.apply_symm_apply i, h.isLive_iff] at hi
    rw [← place.apply_symm_apply j, h.isLive_iff] at hj
    exact ⟨place.symm i, place.symm j, place.symm.injective.ne hne, hi, hj⟩
  · rintro ⟨i, j, hne, hi, hj⟩
    exact ⟨place i, place j, place.injective.ne hne, h.isLive_iff.2 hi, h.isLive_iff.2 hj⟩

/-- Moving items changes no report. -/
theorem Moved.sharedTexts_eq (h : Moved list field place data data') :
    sharedTexts list field data' = sharedTexts list field data :=
  (pairwise_sharedTexts list field data').eq_of_mem_iff (pairwise_sharedTexts list field data)
    fun text => by rw [mem_sharedTexts_iff, mem_sharedTexts_iff, h.isShared_iff]

end FlatRecord.Lookup

namespace FlatRecord.Rule

open Lookup (IsShared Moved sharedTexts)

variable {list field : String} {w : Work}

/-- The rule reports the shared texts. -/
theorem apply_duplicateKey (list field : String) (key : Key) (w : Work) :
    (duplicateKey list field).validator.apply key w =
      ((sharedTexts list field w.data).foldl
        (fun w text => w.report (Key.root.field (list ++ "_validation"))
          (Complaint.duplicate text).message) w, false) := rfl

/-- Each text that live items share is reported once, in ascending order, under the key named after the
list and after the messages that are there. Nothing else changes, and where the items are in the list does
not matter. -/
theorem duplicateKey_exact (list field : String) (key : Key) (w : Work) :
    ∃ texts w', (duplicateKey list field).validator.apply key w = (w', false) ∧
      texts.Pairwise (· < ·) ∧ (∀ text, text ∈ texts ↔ IsShared list field w.data text) ∧
      (∀ k, w'.messages.get? k =
        if k = Key.root.field (list ++ "_validation") ∧ texts ≠ [] then
          some ((w.messages.get? (Key.root.field (list ++ "_validation"))).getD [] ++
            texts.map fun text => "Duplicate key \"" ++ text ++ "\"")
        else w.messages.get? k) ∧
      w'.data = w.data ∧ w'.context = w.context ∧
      ∀ (place : Equiv.Perm Nat) (data : FlatData), Moved list field place w.data data →
        ((duplicateKey list field).validator.apply key { w with data := data }).1.messages =
          w'.messages := by
  have heffect := Lookup.effect_duplicateKey list field key w
  refine ⟨sharedTexts list field w.data, _, apply_duplicateKey list field key w,
    Lookup.pairwise_sharedTexts list field w.data, fun text => Lookup.mem_sharedTexts_iff,
    Work.get?_foldl_report _ _ _ w, heffect.data_eq, heffect.context, fun place data hmoved => ?_⟩
  refine SortedMap.ext_get? fun k => ?_
  rw [apply_duplicateKey, Work.get?_foldl_report, Work.get?_foldl_report, hmoved.sharedTexts_eq]

/-- Items with the text `7` as a number and as a text, one more that is marked as deleted, and one with
another text, at the given positions of a list. -/
def numbered (number text deleted other : Nat) : FlatData :=
  .ofList [(Lookup.itemField "extras" number "key", .ofInt 7),
    (Lookup.itemField "extras" text "key", .ofString "7"),
    (Lookup.itemField "extras" deleted "key", .ofString "x"),
    (Lookup.itemField "extras" deleted "deleted", .ofString "on"),
    (Lookup.itemField "extras" other "key", .ofString "x")]

/-- The items in a row. -/
def rowOfItems : Work := { data := numbered 0 1 2 3, messages := ∅, context := {} }

/-- The text `7` is shared, and `x` is not. With the number behind the others, past a gap, the messages are
the same. -/
theorem duplicateKey_exact_rowOfItems :
    Moved "extras" "key" (Equiv.swap 0 9) rowOfItems.data (numbered 9 1 2 3) ∧
    ((duplicateKey "extras" "key").validator.apply .root rowOfItems).1.messages.entries =
      [(Key.root.field "extras_validation", ["Duplicate key \"7\""])] ∧
    ((duplicateKey "extras" "key").validator.apply .root
        { rowOfItems with data := numbered 9 1 2 3 }).1.messages =
      ((duplicateKey "extras" "key").validator.apply .root rowOfItems).1.messages := by
  have hmoved : Moved "extras" "key" (Equiv.swap 0 9) rowOfItems.data (numbered 9 1 2 3) := by
    intro i
    by_cases hzero : i = 0
    · rw [hzero, Equiv.swap_apply_left]
      exact ⟨rfl, rfl⟩
    · by_cases hnine : i = 9
      · rw [hnine, Equiv.swap_apply_right]
        exact ⟨rfl, rfl⟩
      · rw [Equiv.swap_apply_of_ne_of_ne hzero hnine]
        simp [rowOfItems, numbered, SortedMap.ofList, SortedMap.insertMany, SortedMap.get?_insert,
          Lookup.itemField, hzero, hnine]
  obtain ⟨texts, w', happly, -, -, -, -, -, hsame⟩ :=
    duplicateKey_exact "extras" "key" .root rowOfItems
  refine ⟨hmoved, by rfl, ?_⟩
  rw [happly]
  exact hsame _ _ hmoved

end FlatRecord.Rule
