import FlatRecord.Proofs.Schema.Names
import FlatRecord.Proofs.Validation.ErrorTree
import FlatRecord.Proofs.Validation.Run

/-!
# The messages of a run

A run starts with an empty list for every key with a chain. From there on messages are only added, and
under certain keys only, when every validator sees to this (`Validator.ReportsUnder`): validators that
convert values do, and so does an edit that only records messages under these keys.

So at the end of a run every key is that of a chain, or has a message and is one under which validators
report (`get?_messages_validateFlat`). If these are addresses the error tree of the run is as it
should be (`regular_messages_validateFlat`).
-/

namespace FlatRecord

/-! ## Growing tables -/

namespace Messages

variable {reports : Key → Prop} {m m' m'' : Messages}

/-- From one table to another messages are only added, and under the keys of `reports` only. -/
structure Grows (reports : Key → Prop) (m m' : Messages) : Prop where
  /-- The messages of the first table stay. -/
  kept : m.Extends m'
  /-- A key has what it had, or it is one of `reports` and has a message. -/
  added : ∀ k, m'.get? k = m.get? k ∨ (reports k ∧ m'.Flagged k)

/-- A table grows into itself. -/
theorem Grows.refl (m : Messages) : m.Grows reports m := ⟨.refl m, fun _ => .inl rfl⟩

/-- What grows twice under some keys has grown under these. -/
theorem Grows.trans (h : m.Grows reports m') (h' : m'.Grows reports m'') : m.Grows reports m'' := by
  refine ⟨h.kept.trans h'.kept, fun k => ?_⟩
  rcases h'.added k with hsame | hadded
  · rcases h.added k with hsame' | ⟨hreports, l, hl, hne⟩
    · exact .inl (hsame.trans hsame')
    · exact .inr ⟨hreports, l, hsame.trans hl, hne⟩
  · exact .inr hadded

/-- Recording one message. -/
theorem grows_report (w : Work) {key : Key} (hkey : reports key) (message : String) :
    w.messages.Grows reports (w.report key message).messages := by
  have heffect : w.Effect (fun _ => False) reports (w.report key message) :=
    w.effect_report hkey message
  refine ⟨heffect.messages, fun k => ?_⟩
  by_cases hk : k = key
  · subst hk
    refine .inr ⟨hkey, _, (w.get?_report k message k).trans (if_pos rfl), ?_⟩
    exact List.append_ne_nil_of_right_ne_nil _ (List.cons_ne_nil _ _)
  · exact .inl ((w.get?_report key message k).trans (if_neg hk))

/-- The field errors are the messages of all keys, each with the code `invalid`. -/
theorem mem_fieldErrors_iff {e : FieldError} : e ∈ m.fieldErrors ↔
    e.code = "invalid" ∧ ∃ l, m.get? e.key = some l ∧ e.message ∈ l := by
  unfold fieldErrors
  simp only [List.mem_flatMap, List.mem_map]
  constructor
  · rintro ⟨⟨k, l⟩, hmem, message, hmessage, rfl⟩
    exact ⟨rfl, l, (SortedMap.get?_eq_some_iff m).2 hmem, hmessage⟩
  · rintro ⟨hcode, l, hl, hmessage⟩
    refine ⟨(e.key, l), (SortedMap.get?_eq_some_iff m).1 hl, e.message, hmessage, ?_⟩
    rw [← hcode]

/-- The field errors under a key have the messages of the key, in their order. -/
theorem map_message_fieldErrors (m : Messages) (key : Key) :
    (m.fieldErrors.filter fun e => e.key = key).map (·.message) = (m.get? key).getD [] := by
  -- The entries of the table one by one: those of other keys give nothing.
  have hentry : ∀ e : Key × List String,
      ((e.2.map fun message => ({ key := e.1, message } : FieldError)).filter
        fun x => x.key = key).map (·.message) = if e.1 = key then e.2 else [] := by
    intro e
    rw [List.filter_map, List.map_map]
    by_cases he : e.1 = key
    · simp [he, Function.comp_def]
    · simp [he, Function.comp_def]
  unfold fieldErrors SortedMap.get?
  rw [List.filter_flatMap, List.map_flatMap]
  simp only [hentry]
  -- The induction is on the entries, which ascend.
  have hsorted : m.entries.Pairwise (fun e e' => compare e.1 e'.1 = .lt) := m.sorted
  generalize m.entries = entries at hsorted ⊢
  induction entries with
  | nil => rfl
  | cons e rest ih =>
    obtain ⟨hfirst, hrest⟩ := List.pairwise_cons.1 hsorted
    rw [List.flatMap_cons, ih hrest, Ascending.get?]
    by_cases he : e.1 = key
    · -- The entry of the key: none of those after it has the key.
      have heq : compare key e.1 = .eq := by rw [he]; exact Std.ReflCmp.compare_self
      have hnone : Ascending.get? key rest = none :=
        Ascending.get?_eq_none_of_lt fun e' he' => he ▸ hfirst e' he'
      rw [if_pos he, if_pos heq, hnone, Option.getD_none, List.append_nil]
      rfl
    · -- The entry of another key gives nothing.
      have hne : compare key e.1 ≠ .eq := fun heq => he (Std.LawfulEqCmp.eq_of_compare heq).symm
      rw [if_neg he, if_neg hne, List.nil_append]

/-- A key has a message when there is a field error under it. -/
theorem flagged_iff {key : Key} : m.Flagged key ↔ ∃ e ∈ m.fieldErrors, e.key = key := by
  constructor
  · rintro ⟨l, hl, hne⟩
    obtain ⟨message, rest, hcons⟩ := List.exists_cons_of_ne_nil hne
    refine ⟨{ key, message }, mem_fieldErrors_iff.2 ⟨rfl, l, hl, ?_⟩, rfl⟩
    rw [hcons]
    exact List.mem_cons_self
  · rintro ⟨e, he, rfl⟩
    obtain ⟨-, l, hl, hmessage⟩ := mem_fieldErrors_iff.1 he
    exact ⟨l, hl, List.ne_nil_of_mem hmessage⟩

/-- There are no field errors when every list is empty. -/
theorem isEmpty_fieldErrors_iff :
    m.fieldErrors.isEmpty = true ↔ ∀ k l, m.get? k = some l → l = [] := by
  refine ⟨fun h k l hl => eq_nil_of_isEmpty_fieldErrors h hl, fun h => ?_⟩
  rw [List.isEmpty_iff, List.eq_nil_iff_forall_not_mem]
  intro e he
  obtain ⟨-, l, hl, hmessage⟩ := mem_fieldErrors_iff.1 he
  rw [h e.key l hl] at hmessage
  cases hmessage

end Messages

/-! ## Validators that report under certain keys -/

variable {reports : Key → Prop}

/-- Applied to one of the keys the validator only adds messages, and under these keys only. -/
def Validator.ReportsUnder (reports : Key → Prop) (v : Validator) : Prop :=
  ∀ (key : Key) (w : Work), reports key → w.messages.Grows reports (v.apply key w).1.messages

/-- All validators of a chain report under these keys only. -/
def Chain.ReportsUnder (reports : Key → Prop) (chain : Chain) : Prop :=
  ∀ v ∈ chain, v.ReportsUnder reports

namespace Validator

/-- A signal is recorded under the running key, if at all. -/
theorem grows_settle {key : Key} (hkey : reports key) (w : Work) (signal : Option Signal) :
    w.messages.Grows reports (settle key w signal).1.messages := by
  cases signal with
  | none => exact .refl _
  | some signal => cases signal with
    | invalid complaint => exact Messages.grows_report w hkey _
    | stop => exact .refl _

/-- An edit that only adds messages under certain keys. -/
theorem reportsUnder_context {act : Key → Work → Work × Option Signal}
    (hact : ∀ (key : Key) (w : Work), reports key →
      w.messages.Grows reports (act key w).1.messages) :
    (context act).ReportsUnder reports :=
  fun key w hkey => (hact key w hkey).trans (grows_settle hkey _ _)

end Validator

/-! ## Runs -/

/-- The chain of a key under which validators report adds messages under such keys only. -/
theorem Chain.ReportsUnder.grows_run {chain : Chain} (h : chain.ReportsUnder reports) {key : Key}
    (hkey : reports key) (w : Work) : w.messages.Grows reports (chain.run key w).messages :=
  Chain.run_invariant (P := fun w' => w.messages.Grows reports w'.messages)
    (fun v hv w' hw' => hw'.trans (h v hv key w' hkey)) (.refl _)

/-- The same of several chains, one after the other. -/
theorem grows_runChains {turns : List (Key × Chain)}
    (h : ∀ turn ∈ turns, reports turn.1 ∧ turn.2.ReportsUnder reports) (w : Work) :
    w.messages.Grows reports (runChains turns w).messages := by
  refine runChains_invariant (P := fun w' => w.messages.Grows reports w'.messages)
    (fun turn hturn w' hw' => ?_) (.refl _)
  obtain ⟨hkey, hchain⟩ := h turn hturn
  exact hw'.trans (hchain.grows_run hkey w')

section Validated

variable {s : Schema} {r : Record} {f : FlatValues} {c : Context} {w : Work}

/-- At the end of a run every key with a chain has a list, and any other key with a list has a message
and is one under which validators report. -/
theorem get?_messages_validateFlat (hchains : s.AllChains (Chain.ReportsUnder reports))
    (hfull : ∀ k chain, (Expansion.of s f).full.get? k = some chain → reports k)
    (hw : validateFlat f s c = .ok w) :
    (∀ k chain, (Expansion.of s f).full.get? k = some chain → ∃ l, w.messages.get? k = some l) ∧
      ∀ k l, w.messages.get? k = some l →
        (∃ chain, (Expansion.of s f).full.get? k = some chain) ∨ (reports k ∧ l ≠ []) := by
  obtain ⟨a, -, rfl⟩ := validateFlat_eq_ok_iff.1 hw
  have hturns : ∀ turn ∈ schedule (Expansion.of s f).full,
      reports turn.1 ∧ turn.2.ReportsUnder reports := by
    intro turn hturn
    have hget := get?_of_mem_schedule hturn
    exact ⟨hfull _ _ hget, Expansion.of_get?_full hchains hget⟩
  have hgrows := grows_runChains hturns (startWork (Expansion.of s f) a c)
  -- At the start the lists of messages are those of the keys with chains, and empty.
  have hstart : ∀ k, (startWork (Expansion.of s f) a c).messages.get? k =
      ((Expansion.of s f).full.get? k).map fun _ => [] :=
    fun k => SortedMap.get?_map _ _ k
  refine ⟨fun k chain hchain => ?_, fun k l hl => ?_⟩
  · obtain ⟨more, hmore⟩ := hgrows.kept k [] (by rw [hstart, hchain, Option.map_some])
    exact ⟨_, hmore⟩
  · rcases hgrows.added k with hsame | ⟨hreports, l', hl', hne⟩
    · -- A list that was there from the start belongs to a key with a chain.
      rw [hl, hstart] at hsame
      obtain ⟨chain, hchain, -⟩ := Option.map_eq_some_iff.1 hsame.symm
      exact .inl ⟨chain, hchain⟩
    · -- A list that was added has a message from a validator.
      rw [hl, Option.some.injEq] at hl'
      rw [← hl'] at hne
      exact .inr ⟨hreports, hne⟩

/-- When no field has the name of a slot and validators report under addresses, the messages of a run
have addresses for keys, and no item of a list has an empty list of messages. -/
theorem regular_messages_validateFlat (hs : s.Distinct) (hnames : s.AllNames Control.Unused)
    (hchains : s.AllChains (Chain.ReportsUnder Key.IsAddress)) (hr : r.flatten = .ok f)
    (hw : validateFlat f s c = .ok w) : w.messages.Regular := by
  obtain ⟨-, hkeys⟩ := get?_messages_validateFlat hchains
    (fun k chain hget => Expansion.isAddress_of_get?_full hs hr hnames hget) hw
  refine ⟨fun k hk => ?_, fun k l hl hindex => ?_⟩
  · obtain ⟨l, hl⟩ := SortedMap.mem_keys_iff.1 hk
    rcases hkeys k l hl with ⟨chain, hchain⟩ | ⟨haddress, -⟩
    · exact Expansion.isAddress_of_get?_full hs hr hnames hchain
    · exact haddress
  · rcases hkeys k l hl with ⟨chain, hchain⟩ | ⟨-, hne⟩
    · obtain ⟨i, hi⟩ := hindex
      exact absurd hi (Expansion.last?_ne_index_of_get?_full hs hr hnames hchain i)
    · exact hne

end Validated

end FlatRecord
