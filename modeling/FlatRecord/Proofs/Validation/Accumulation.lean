import FlatRecord.Proofs.Validation.Messages
import FlatRecord.Proofs.Validation.Trace

/-!
# Messages accumulate

In a run of library rules no application takes back, replaces or reorders a message, and each of them
stays within narrow bounds: `Rule.effect_apply_within` says under which keys a rule may report, and at
which it may change the record. So an outcome is valid exactly when no application of the run has
recorded a message (`validateFlat_accumulates`): what is there after one application is there in the end
(`Leads.extends_of_mem`).
-/

namespace FlatRecord

/-! ## Messages under a key -/

namespace Messages

variable {m m' : Messages}

/-- The messages under a key; there are none under a key without a list. -/
def under (m : Messages) (key : Key) : List String := (m.get? key).getD []

/-- In a table that extends another the messages of the other come first. -/
theorem Extends.prefix_under (h : m.Extends m') (key : Key) : m.under key <+: m'.under key := by
  unfold under
  cases hget : m.get? key with
  | none => exact List.nil_prefix
  | some l =>
    obtain ⟨more, hmore⟩ := h key l hget
    rw [hmore]
    exact List.prefix_append l more

/-- There is no field error if no key has a message. -/
theorem isEmpty_fieldErrors_iff_under :
    m.fieldErrors.isEmpty = true ↔ ∀ key, m.under key = [] := by
  rw [isEmpty_fieldErrors_iff]
  unfold under
  constructor
  · intro h key
    cases hget : m.get? key with
    | none => rfl
    | some l => exact h key l hget
  · intro h key l hget
    have hunder := h key
    rwa [hget] at hunder

end Messages

/-! ## Bounds of rules -/

namespace Rule

variable {rule : Rule} {key k : Key} {w : Work}

/-- The keys under which a rule may report when it is applied to a key: the key itself, but for repeated
texts the key named after the list, and only that. -/
def ReportsAt (rule : Rule) (key k : Key) : Prop :=
  match rule with
  | duplicateKey list _ => k = Key.root.field (list ++ "_validation")
  | _ => k = key

/-- The keys at which a rule may change the record when it is applied to a key. Besides the key itself
these are the fields beside a slot that have the names in it, and the names of items that the list does
not have yet. -/
def ChangesAt (rule : Rule) (key : Key) (w : Work) (k : Key) : Prop :=
  k = key ∨ match rule with
    | keepExtras => ∃ field ∈ Presence.bucketFields (w.datum key), k = key.parent.field field.1
    | spreadTags list => w.data.contains k = false ∧ ∃ n, k = Naming.itemName list n
    | _ => False

/-- A rule writes within these bounds: positions after those in use have no value yet. -/
theorem changesAt_of_writes (h : rule.Writes key w.data k) : rule.ChangesAt key w k := by
  rcases h with rfl | hother
  · exact .inl rfl
  · refine .inr ?_
    cases rule with
    | keepExtras => exact hother
    | spreadTags list =>
      obtain ⟨n, hn, rfl⟩ := hother
      refine ⟨Bool.eq_false_iff.2 fun hcontains => ?_, n, rfl⟩
      exact absurd (Naming.lt_nextPosition hcontains) (by omega)
    | _ => exact hother

/-- What a rule of the library changes, within its bounds. -/
theorem effect_apply_within (rule : Rule) (key : Key) (w : Work) :
    w.Effect (rule.ChangesAt key w) (rule.ReportsAt key) (rule.validator.apply key w).1 := by
  have hwrites : ∀ k, rule.Writes key w.data k → rule.ChangesAt key w k :=
    fun k => changesAt_of_writes
  cases rule with
  | duplicateKey list field =>
    -- The rule ends without a signal, so nothing is reported under the running key.
    exact (Lookup.effect_duplicateKey list field key w).imp nofun fun _ hk => hk
  | _ => exact (effect_apply _ key w).imp hwrites fun _ hk => hk.resolve_right id

end Rule

/-! ## Applications -/

/-- The application has recorded a message: some key has more of them than before. -/
def Application.Records (app : Application) : Prop :=
  ∃ key, (app.before.messages.under key).length < (app.after.messages.under key).length

section Leads

variable {w w' : Work} {app : Application} {apps : List Application}

/-- When no application takes back a message, the messages after each of them are there in the end. -/
theorem Leads.extends_of_mem (h : Leads w apps w')
    (hextends : ∀ app ∈ apps, app.before.messages.Extends app.after.messages) (happ : app ∈ apps) :
    app.after.messages.Extends w'.messages := by
  induction apps generalizing w with
  | nil => cases happ
  | cons first rest ih =>
    have hrest : ∀ app ∈ rest, app.before.messages.Extends app.after.messages :=
      fun app' happ' => hextends app' (List.mem_cons_of_mem _ happ')
    -- The application is the first one: the messages after it grow only, up to the end.
    rcases List.mem_cons.1 happ with rfl | happ'
    · refine h.2.invariant (P := fun w => app.after.messages.Extends w.messages) ?_ (.refl _)
      exact fun app' happ' hbefore => hbefore.trans (hrest app' happ')
    · exact ih h.2 hrest happ'

/-- From a state without messages to one without messages, and only then, no application has recorded
one. -/
theorem Leads.isEmpty_fieldErrors_iff (h : Leads w apps w')
    (hextends : ∀ app ∈ apps, app.before.messages.Extends app.after.messages)
    (hstart : ∀ key, w.messages.under key = []) :
    w'.messages.fieldErrors.isEmpty = true ↔ ∀ app ∈ apps, ¬ app.Records := by
  rw [Messages.isEmpty_fieldErrors_iff_under]
  constructor
  · -- The messages after an application are kept, so it has recorded none if there is none in the end.
    rintro hend app happ ⟨key, hmore⟩
    have hunder := (h.extends_of_mem hextends happ).prefix_under key
    rw [hend key, List.prefix_nil] at hunder
    rw [hunder] at hmore
    exact absurd hmore (Nat.not_lt_zero _)
  · -- An application that records nothing leaves every key without messages.
    intro hsilent
    refine h.invariant (P := fun w => ∀ key, w.messages.under key = [])
      (fun app happ hbefore key => ?_) hstart
    have hlength : ¬ (app.before.messages.under key).length < (app.after.messages.under key).length :=
      fun hmore => hsilent app happ ⟨key, hmore⟩
    rw [hbefore key] at hlength
    exact List.length_eq_zero_iff.1 (Nat.eq_zero_of_not_pos hlength)

end Leads

/-! ## Validation -/

section Validation

variable {s : Schema} {f : FlatValues} {c : Context} {w : Work} {a : FlatData}

/-- A run starts without messages. -/
theorem under_startWork (e : Expansion) (a : FlatData) (c : Context) (key : Key) :
    (startWork e a c).messages.under key = [] := by
  show ((e.full.map fun _ => ([] : List String)).get? key).getD [] = []
  rw [SortedMap.get?_map]
  cases e.full.get? key <;> rfl

/-- In a schema of library rules every application is that of a rule, and stays within its bounds. -/
theorem exists_rule_of_mem_applications (hlib : s.AllChains (Chain.OfRules fun _ => True))
    {app : Application} (happ : app ∈ (Expansion.of s f).applications a c) :
    ∃ rule : Rule, app.validator = rule.validator ∧
      app.before.Effect (rule.ChangesAt app.key app.before) (rule.ReportsAt app.key) app.after := by
  obtain ⟨chain, hget, hv⟩ := Expansion.exists_of_mem_applications happ
  obtain ⟨rules, rfl, -⟩ := Expansion.of_get?_full hlib hget
  obtain ⟨rule, -, hrule⟩ := List.mem_map.1 hv
  refine ⟨rule, hrule.symm, ?_⟩
  unfold Application.after
  rw [← hrule]
  exact rule.effect_apply_within app.key app.before

/-- In a run of library rules messages only accumulate. After each application every key has the messages
that it had before, and more after them if any; the rule reports and changes the record at the keys that
are its own to report under and to change, and at no others. So an outcome is valid exactly when no
application has recorded a message. -/
theorem validateFlat_accumulates (hlib : s.AllChains (Chain.OfRules fun _ => True))
    (hw : validateFlat f s c = .ok w) :
    ∃ a, (Expansion.of s f).complete f = .ok a ∧
      Leads (startWork (Expansion.of s f) a c) ((Expansion.of s f).applications a c) w ∧
      (∀ app ∈ (Expansion.of s f).applications a c,
        app.before.messages.Extends app.after.messages ∧
        ∃ rule : Rule, app.validator = rule.validator ∧
          (∀ k, app.after.messages.get? k ≠ app.before.messages.get? k →
            rule.ReportsAt app.key k) ∧
          ∀ k, app.after.data.get? k ≠ app.before.data.get? k →
            rule.ChangesAt app.key app.before k) ∧
      ∀ r c₀ o, r.flatten = .ok f → { c₀ with schemaKeys := s.fieldNames } = c →
        validate r s c₀ = .ok o →
        (o.isValid = true ↔ ∀ app ∈ (Expansion.of s f).applications a c, ¬ app.Records) := by
  obtain ⟨a, ha, rfl⟩ := validateFlat_eq_ok_iff.1 hw
  have hleads := leads_turnsTaken (schedule (Expansion.of s f).full) (startWork (Expansion.of s f) a c)
  refine ⟨a, ha, hleads, fun app happ => ?_, fun r c₀ o hr hc ho => ?_⟩
  · obtain ⟨rule, hrule, h⟩ := exists_rule_of_mem_applications hlib happ
    refine ⟨h.messages, rule, hrule, fun k hk => ?_, fun k hk => ?_⟩
    · exact Classical.byContradiction fun hnot => hk (h.quiet k hnot)
    · exact Classical.byContradiction fun hnot => hk (h.data k hnot)
  · -- The outcome is that of this very run, which starts without messages.
    obtain ⟨f', w', hr', hw', rfl⟩ := validate_eq_ok_iff.1 ho
    cases hr.symm.trans hr'
    rw [hc] at hw'
    cases hw.symm.trans hw'
    refine hleads.isEmpty_fieldErrors_iff (fun app happ => ?_) (under_startWork (Expansion.of s f) a c)
    obtain ⟨rule, -, h⟩ := exists_rule_of_mem_applications hlib happ
    exact h.messages

end Validation

/-- Tags in one text that go to a list, with the rules that write and report away from their key. -/
def tagged : Schema where
  fields := [
    ("keywords", .leaf [(Rule.spreadTags "tags").validator]),
    ("tags", .sub { fields := [("name", .leaf [])] }),
    ("title", .leaf [Rule.notEmpty.validator])]
  after := some [(Rule.duplicateKey "tags" "name").validator]
  extras := some [Rule.keepExtras.validator]

/-- A record for it: no title, a tag twice, a tag that is too short, and a field without a place. -/
def crammed : Record where
  entries := [("color", .str "red"), ("keywords", .str "x, ab"),
    ("tags", .arr [.obj [("name", .str "ab")]])]
  sorted := by decide

/-- The record as a flat one. -/
def crammedFlat : FlatValues := .ofList [
  (⟨[.field "color"]⟩, .str "red"), (⟨[.field "keywords"]⟩, .str "x, ab"),
  (Naming.itemName "tags" 0, .str "ab")]

/-- The record without a title, with a tag twice and one that is too short, has a message from each of three
rules. -/
theorem validateFlat_accumulates_crammed :
    tagged.AllChains (Chain.OfRules fun _ => True) ∧ crammed.flatten = .ok crammedFlat ∧
      ∃ o w, validate crammed tagged {} = .ok o ∧
        validateFlat crammedFlat tagged { schemaKeys := tagged.fieldNames } = .ok w ∧
        o.isValid = false ∧
        o.fieldErrors.map (·.key.text) = ["keywords", "tags_validation", "title"] ∧
        ∃ a, (Expansion.of tagged crammedFlat).complete crammedFlat = .ok a ∧
          ((Expansion.of tagged crammedFlat).applications a
              { schemaKeys := tagged.fieldNames }).map (·.key.text) =
            ["keywords", "title", "__extras", "__after"] ∧
          ∃ app ∈ (Expansion.of tagged crammedFlat).applications a
              { schemaKeys := tagged.fieldNames }, app.Records := by
  have hlib : tagged.AllChains (Chain.OfRules fun _ => True) := by
    refine ⟨⟨⟨[.spreadTags "tags"], rfl, fun _ _ => trivial⟩, ⟨⟨⟨[], rfl, fun _ _ => trivial⟩, trivial⟩,
      fun slot chain hchain => by cases slot <;> cases hchain⟩,
      ⟨[.notEmpty], rfl, fun _ _ => trivial⟩, trivial⟩, fun slot chain hchain => ?_⟩
    cases slot with
    | after =>
      cases hchain
      exact ⟨[.duplicateKey "tags" "name"], rfl, fun _ _ => trivial⟩
    | extras =>
      cases hchain
      exact ⟨[.keepExtras], rfl, fun _ _ => trivial⟩
    | before => cases hchain
    | junk => cases hchain
  have hr : crammed.flatten = .ok crammedFlat := rfl
  obtain ⟨o, ho⟩ : ∃ o, validate crammed tagged {} = .ok o := ⟨_, rfl⟩
  obtain ⟨w, hw⟩ : ∃ w, validateFlat crammedFlat tagged { schemaKeys := tagged.fieldNames } = .ok w :=
    ⟨_, rfl⟩
  obtain ⟨a, ha, -, -, hvalid⟩ := validateFlat_accumulates hlib hw
  have hinvalid : o.isValid = false := by
    cases ho
    rfl
  refine ⟨hlib, hr, o, w, ho, hw, hinvalid, ?_, a, ha, ?_, ?_⟩
  · cases ho
    rfl
  · cases ha
    rfl
  · -- An outcome with messages is not valid, so one application has recorded one.
    have hsome := mt (hvalid crammed {} o hr rfl ho).2 (by rw [hinvalid]; exact nofun)
    simpa using hsome

end FlatRecord
