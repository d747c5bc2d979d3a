import FlatRecord.Proofs.Key
import FlatRecord.Proofs.SortedMap
import FlatRecord.Rule

/-!
# What rules change

A `Work.Effect` says which values an edit of a record may change and under which keys it may report,
and that messages are only added. The edits of a `Work` have their effects, effects of one edit after
the other combine, and so every validator that converts values has one (`effect_apply_value`), and
every rule of the library (`Rule.effect_apply`).

Most rules write under the running key only. Two rules write elsewhere: `keepExtras` moves the fields
in a slot beside the slot, and `spreadTags` adds items to a list at positions that are not in use, so
that it never writes under a key that has a value (`Rule.not_writes_of_contains`).
-/

namespace FlatRecord

/-! ## Messages -/

namespace Messages

variable {m m' m'' : Messages}

/-- The messages of one table come first among those of another. -/
def Extends (m m' : Messages) : Prop :=
  ∀ k l, m.get? k = some l → ∃ more, m'.get? k = some (l ++ more)

/-- A table extends itself. -/
theorem Extends.refl (m : Messages) : m.Extends m :=
  fun _ l h => ⟨[], by rw [h, List.append_nil]⟩

/-- Extensions of extensions are extensions. -/
theorem Extends.trans (h : m.Extends m') (h' : m'.Extends m'') : m.Extends m'' := by
  intro k l hl
  obtain ⟨more, hmore⟩ := h k l hl
  obtain ⟨more', hmore'⟩ := h' k _ hmore
  exact ⟨more ++ more', by rw [hmore', List.append_assoc]⟩

end Messages

/-! ## Effects -/

/-- From one state of a record to another values change under the keys of `writes` only, messages are
added under the keys of `reports` only, and the context stays. -/
structure Work.Effect (writes reports : Key → Prop) (w w' : Work) : Prop where
  /-- Other keys keep their values. -/
  data : ∀ k, ¬ writes k → w'.data.get? k = w.data.get? k
  /-- Messages are only added. -/
  messages : w.messages.Extends w'.messages
  /-- Other keys keep their messages. -/
  quiet : ∀ k, ¬ reports k → w'.messages.get? k = w.messages.get? k
  /-- The context is the same. -/
  context : w'.context = w.context

namespace Work

variable {writes writes' reports reports' : Key → Prop} {w w' w'' : Work} {key : Key}

/-- To change nothing is within any bounds. -/
theorem Effect.refl (w : Work) : Effect writes reports w w :=
  ⟨fun _ _ => rfl, .refl _, fun _ _ => rfl, rfl⟩

/-- The effects of two edits combine. -/
theorem Effect.trans (h : Effect writes reports w w') (h' : Effect writes reports w' w'') :
    Effect writes reports w w'' where
  data k hk := (h'.data k hk).trans (h.data k hk)
  messages := h.messages.trans h'.messages
  quiet k hk := (h'.quiet k hk).trans (h.quiet k hk)
  context := h'.context.trans h.context

/-- An effect may be stated with more keys. -/
theorem Effect.imp (h : Effect writes reports w w') (hwrites : ∀ k, writes k → writes' k)
    (hreports : ∀ k, reports k → reports' k) : Effect writes' reports' w w' where
  data k hk := h.data k fun hw => hk (hwrites k hw)
  messages := h.messages
  quiet k hk := h.quiet k fun hw => hk (hreports k hw)
  context := h.context

/-- Storing a value writes under its key. -/
theorem effect_store (w : Work) (hkey : writes key) (d : Datum) :
    Effect writes reports w (w.store key d) where
  data _ hk := SortedMap.get?_insert_of_ne w.data d fun he => hk (he ▸ hkey)
  messages := .refl _
  quiet _ _ := rfl
  context := rfl

/-- Removing an entry writes under its key. -/
theorem effect_remove (w : Work) (hkey : writes key) :
    Effect writes reports w (w.remove key) where
  data _ hk := SortedMap.get?_erase_of_ne w.data fun he => hk (he ▸ hkey)
  messages := .refl _
  quiet _ _ := rfl
  context := rfl

/-- A message is added after those that are there. -/
theorem get?_report (w : Work) (key : Key) (message : String) (k : Key) :
    (w.report key message).messages.get? k =
      if k = key then some ((w.messages.get? key).getD [] ++ [message]) else w.messages.get? k :=
  SortedMap.get?_alter_eq w.messages key _ k

/-- Recording a message reports under its key. -/
theorem effect_report (w : Work) (hkey : reports key) (message : String) :
    Effect writes reports w (w.report key message) where
  data _ _ := rfl
  messages := by
    intro k l hl
    rw [get?_report]
    -- The key of the message gets one more, and other keys none.
    by_cases hk : k = key
    · rw [if_pos hk, ← hk, hl]
      exact ⟨[message], rfl⟩
    · rw [if_neg hk, hl]
      exact ⟨[], by rw [List.append_nil]⟩
  quiet k hk := by
    have hne : k ≠ key := fun he => hk (he ▸ hkey)
    rw [get?_report, if_neg hne]
  context := rfl

/-- Reporting several messages under keys of `reports` is an effect on messages alone. -/
theorem effect_foldl_report {α : Type} (l : List α) (hkey : reports key) (message : α → String)
    (w : Work) : Effect writes reports w (l.foldl (fun w a => w.report key (message a)) w) := by
  induction l generalizing w with
  | nil => exact .refl w
  | cons a rest ih => exact (effect_report w hkey (message a)).trans (ih _)

/-- Several messages are added in their order, after those that are there. -/
theorem get?_foldl_report {α : Type} (l : List α) (key : Key) (message : α → String) (w : Work)
    (k : Key) : (l.foldl (fun w a => w.report key (message a)) w).messages.get? k =
      if k = key ∧ l ≠ [] then some ((w.messages.get? key).getD [] ++ l.map message)
      else w.messages.get? k := by
  induction l generalizing w with
  | nil => simp
  | cons a rest ih =>
    rw [List.foldl_cons, ih]
    -- The first message comes before those of the rest.
    by_cases hk : k = key
    · by_cases hrest : rest = [] <;> simp [get?_report, hk, hrest]
    · simp [get?_report, hk]

/-- An edit that may write under no key leaves the values. -/
theorem Effect.data_eq (h : Effect (fun _ => False) reports w w') : w'.data = w.data :=
  SortedMap.ext_get? fun k => h.data k id

/-- A patch writes under the keys that it stores or removes. -/
theorem effect_patch (w : Work) (p : Patch) (hwrites : ∀ k ∈ p.writes.map (·.1), writes k)
    (hremovals : ∀ k ∈ p.removals, writes k) : Effect writes reports w (w.patch p) where
  data k hk := by
    show (p.apply w.data).get? k = w.data.get? k
    unfold Patch.apply
    rw [SortedMap.get?_insertMany_of_not_mem _ fun h => hk (hwrites k h),
      SortedMap.get?_foldl_erase_of_not_mem _ fun h => hk (hremovals k h)]
  messages := .refl _
  quiet _ _ := rfl
  context := rfl

end Work

/-! ## Validators that convert values -/

namespace Validator

variable {writes reports : Key → Prop} {w : Work} {key : Key} {v : Validator}

/-- Settling a signal reports under the key, if anything. -/
theorem effect_settle (w : Work) (hkey : reports key) (signal : Option Signal) :
    w.Effect writes reports (settle key w signal).1 := by
  cases signal with
  | none => exact .refl w
  | some signal => cases signal with
    | invalid complaint => exact w.effect_report hkey _
    | stop => exact .refl w

/-- An edit followed by its signal has the effect of the edit, and may report under the running key. -/
theorem effect_apply_context {act : Key → Work → Work × Option Signal} (hkey : reports key)
    (h : w.Effect writes reports (act key w).1) :
    w.Effect writes reports ((context act).apply key w).1 :=
  h.trans (effect_settle _ hkey _)

/-- A validator that converts the value stores what it makes of it, or settles its signal. -/
theorem apply_of_isValueValidator (hv : v.isValueValidator = true) (key : Key) (w : Work) :
    v.apply key w = storeResult key w (v.convert (w.datum key) w.context) := by
  cases v with
  | context act => cases hv
  | _ => rfl

/-- A validator that converts the value writes and reports under the running key only. -/
theorem effect_apply_value (hv : v.isValueValidator = true) (key : Key) (w : Work) :
    w.Effect (· = key) (· = key) (v.apply key w).1 := by
  rw [apply_of_isValueValidator hv]
  cases v.convert (w.datum key) w.context with
  | ok d => exact w.effect_store (by rfl) d
  | error signal => exact effect_settle w (by rfl) _

end Validator

/-! ## Rules on presence -/

namespace Presence

variable {w : Work} {key : Key}

/-- Reporting a missing value is the effect of a rule on the running key. -/
theorem effect_require (key : Key) (w : Work) : w.Effect (· = key) (· = key) (require key w).1 :=
  w.effect_report (by rfl) _

/-- `ignore` removes the entry under its key. -/
theorem effect_ignore (key : Key) (w : Work) : w.Effect (· = key) (· = key) (ignore key w).1 :=
  w.effect_remove (by rfl)

/-- `notMissing` reports under its key. -/
theorem effect_notMissing (key : Key) (w : Work) :
    w.Effect (· = key) (· = key) (notMissing key w).1 := by
  unfold notMissing
  split
  · exact effect_require key w
  · exact .refl w

/-- `notEmpty` reports under its key. -/
theorem effect_notEmpty (key : Key) (w : Work) :
    w.Effect (· = key) (· = key) (notEmpty key w).1 := by
  unfold notEmpty
  split
  · exact effect_require key w
  · exact .refl w

/-- `ignoreMissing` removes the entry under its key. -/
theorem effect_ignoreMissing (key : Key) (w : Work) :
    w.Effect (· = key) (· = key) (ignoreMissing key w).1 := by
  unfold ignoreMissing
  dsimp only
  split
  · exact effect_ignore key w
  · exact .refl w

/-- `ignoreEmpty` removes the entry under its key. -/
theorem effect_ignoreEmpty (key : Key) (w : Work) :
    w.Effect (· = key) (· = key) (ignoreEmpty key w).1 := by
  unfold ignoreEmpty
  split
  · exact effect_ignore key w
  · exact .refl w

/-- `empty` removes the entry under its key and reports there. -/
theorem effect_empty (key : Key) (w : Work) : w.Effect (· = key) (· = key) (empty key w).1 := by
  have hremove : w.Effect (· = key) (· = key) (w.remove key) := w.effect_remove (by rfl)
  unfold empty
  dsimp only
  split
  · exact hremove
  · exact hremove.trans (Work.effect_report _ (by rfl) _)

/-- `default` stores under its key. -/
theorem effect_default (value : Json) (key : Key) (w : Work) :
    w.Effect (· = key) (· = key) (default value key w).1 := by
  unfold default
  split
  · exact w.effect_store (by rfl) _
  · exact .refl w

/-- `ifEmptySameAs` stores under its key; the other field is only read. -/
theorem effect_ifEmptySameAs (other : String) (key : Key) (w : Work) :
    w.Effect (· = key) (· = key) (ifEmptySameAs other key w).1 := by
  unfold ifEmptySameAs
  split
  · exact w.effect_store (by rfl) _
  · exact .refl w

/-- `bothNotEmpty` reports under its key; the other field is only read. -/
theorem effect_bothNotEmpty (other : String) (key : Key) (w : Work) :
    w.Effect (· = key) (· = key) (bothNotEmpty other key w).1 := by
  unfold bothNotEmpty
  split
  · exact effect_require key w
  · exact .refl w

/-- The fields in a slot move beside it. -/
theorem effect_keepExtras (key : Key) (w : Work) : w.Effect
    (fun k => k = key ∨ ∃ field ∈ bucketFields (w.datum key), k = sibling key field.1) (· = key)
    (keepExtras key w).1 := by
  refine w.effect_patch _ (fun k hk => ?_) (fun k hk => .inl (List.mem_singleton.1 hk))
  rw [List.map_map] at hk
  obtain ⟨field, hfield, rfl⟩ := List.mem_map.1 hk
  exact .inr ⟨field, hfield, rfl⟩

end Presence

/-! ## Rules on tags -/

namespace Naming

/-- The entries of tags are names of items from a position on. -/
theorem exists_of_mem_tagEntries {list : String} {next : Nat} {tags : List String}
    {e : Key × Datum} (h : e ∈ tagEntries list next tags) :
    ∃ n, next ≤ n ∧ e.1 = itemName list n := by
  induction tags generalizing next with
  | nil => cases h
  | cons tag rest ih =>
    rcases List.mem_cons.1 h with rfl | h
    · exact ⟨next, Nat.le_refl _, rfl⟩
    · obtain ⟨n, hn, he⟩ := ih h
      exact ⟨n, by omega, he⟩

/-- The maximum is not less than the number that it starts from, nor than any of the others. -/
theorem le_foldl_max {l : List Nat} {b n : Nat} (h : n ≤ b ∨ n ∈ l) : n ≤ l.foldl max b := by
  induction l generalizing b with
  | nil => exact h.resolve_right List.not_mem_nil
  | cons m rest ih =>
    rw [List.foldl_cons]
    refine ih ?_
    -- The number is bounded by what the fold starts from next, or is further on.
    rcases h with h | h
    · exact .inl (by omega)
    · rcases List.mem_cons.1 h with rfl | h
      · exact .inl (by omega)
      · exact .inr h

/-- The next position of a list is after those in use: those in keys of three segments that start with
the list. -/
theorem lt_nextPosition {list : String} {n : Nat} {last : Segment} {data : FlatData}
    (h : data.contains ⟨[.field list, .index n, last]⟩ = true) : n < nextPosition list data := by
  have hmem : n + 1 ∈ data.keys.map (positionAfter list) := by
    refine List.mem_map.2 ⟨_, SortedMap.mem_keys.2 h, ?_⟩
    simp [positionAfter]
  exact le_foldl_max (.inr hmem)

/-- Tags become names of items after those in use, and faults are reported under the running key. -/
theorem effect_spreadTags (list : String) (key : Key) (w : Work) : w.Effect
    (fun k => ∃ n, nextPosition list w.data ≤ n ∧ k = itemName list n) (· = key)
    (spreadTags list key w).1 := by
  unfold spreadTags
  cases tagsOf (w.datum key) with
  | error complaint => exact .refl w
  | ok tags =>
    -- The names are patched in, and then each fault is reported.
    refine Work.Effect.trans (w.effect_patch _ (fun k hk => ?_)
      fun k hk => absurd hk List.not_mem_nil) (Work.effect_foldl_report _ (by rfl) _ _)
    obtain ⟨e, he, rfl⟩ := List.mem_map.1 hk
    exact exists_of_mem_tagEntries he

end Naming

/-! ## Rules on rows and on lists -/

namespace Lookup

/-- `nameUnique` reports under its key. -/
theorem effect_nameUnique (kind : String) (key : Key) (w : Work) :
    w.Effect (· = key) (· = key) (nameUnique kind key w).1 := by
  unfold nameUnique
  split
  · exact .refl w
  · split
    · exact .refl w
    · exact .refl w
    · split
      · exact w.effect_report (by rfl) _
      · exact .refl w

/-- Repeated texts are reported under the key named after the list. -/
theorem effect_duplicateKey (list field : String) (key : Key) (w : Work) : w.Effect
    (fun _ => False) (· = Key.root.field (list ++ "_validation"))
    (duplicateKey list field key w).1 :=
  Work.effect_foldl_report _ (by rfl) _ w

end Lookup

/-! ## Rules of the library -/

namespace Rule

variable {rule : Rule} {key k : Key} {w : Work}

/-- The keys under which a rule may write when it is applied to a key. -/
def Writes (rule : Rule) (key : Key) (data : FlatData) (k : Key) : Prop :=
  k = key ∨ match rule with
    | keepExtras => ∃ field ∈ Presence.bucketFields ((data.get? key).getD .missing),
      k = Presence.sibling key field.1
    | spreadTags list => ∃ n, Naming.nextPosition list data ≤ n ∧ k = Naming.itemName list n
    | _ => False

/-- The keys under which a rule may report when it is applied to a key. -/
def Reports (rule : Rule) (key k : Key) : Prop :=
  k = key ∨ match rule with
    | duplicateKey list _ => k = Key.root.field (list ++ "_validation")
    | _ => False

/-- What a rule of the library changes: it writes and reports where it may, takes back no message and
leaves the context. -/
theorem effect_apply (rule : Rule) (key : Key) (w : Work) :
    w.Effect (rule.Writes key w.data) (rule.Reports key) (rule.validator.apply key w).1 := by
  -- Most rules have an effect on the running key alone, which each rule may have.
  have own : ∀ {w' : Work}, w.Effect (· = key) (· = key) w' →
      w.Effect (rule.Writes key w.data) (rule.Reports key) w' :=
    fun h => h.imp (fun _ hk => .inl hk) (fun _ hk => .inl hk)
  have act : ∀ {act : Key → Work → Work × Option Signal},
      w.Effect (rule.Writes key w.data) (rule.Reports key) (act key w).1 →
      w.Effect (rule.Writes key w.data) (rule.Reports key) ((Validator.context act).apply key w).1 :=
    fun h => Validator.effect_apply_context (.inl rfl) h
  cases rule with
  | notMissing => exact act (own (Presence.effect_notMissing key w))
  | notEmpty => exact act (own (Presence.effect_notEmpty key w))
  | ignore => exact act (own (Presence.effect_ignore key w))
  | ignoreMissing => exact act (own (Presence.effect_ignoreMissing key w))
  | ignoreEmpty => exact act (own (Presence.effect_ignoreEmpty key w))
  | empty => exact act (own (Presence.effect_empty key w))
  | default value => exact act (own (Presence.effect_default value key w))
  | ifEmptySameAs other => exact act (own (Presence.effect_ifEmptySameAs other key w))
  | bothNotEmpty other => exact act (own (Presence.effect_bothNotEmpty other key w))
  | nameUnique kind => exact act (own (Lookup.effect_nameUnique kind key w))
  | keepExtras =>
    exact act ((Presence.effect_keepExtras key w).imp (fun _ hk => hk) fun _ hk => .inl hk)
  | spreadTags list =>
    exact act ((Naming.effect_spreadTags list key w).imp (fun _ hk => .inr hk) fun _ hk => .inl hk)
  | duplicateKey list field =>
    exact act ((Lookup.effect_duplicateKey list field key w).imp nofun fun _ hk => .inr hk)
  | _ => exact own (Validator.effect_apply_value rfl key w)

/-- A rule leaves a key with a value to which it is not applied, unless it moves extras beside a slot
to that key. -/
theorem not_writes_of_contains (hk : w.data.contains k = true) (hne : k ≠ key)
    (hkeep : rule = keepExtras → k.parent ≠ key.parent) : ¬ rule.Writes key w.data k := by
  -- A rule writes under its own key, under fields moved out of a slot, or at positions not in use.
  rintro (he | hother)
  · exact hne he
  · cases rule with
    | keepExtras =>
      obtain ⟨field, -, rfl⟩ := hother
      exact hkeep rfl Key.parent_field
    | spreadTags list =>
      obtain ⟨n, hn, rfl⟩ := hother
      exact absurd (Naming.lt_nextPosition hk) (by omega)
    | _ => exact hother

end Rule

end FlatRecord
