import FlatRecord.Proofs.Validation.Lossless
import FlatRecord.Proofs.Validation.PhaseOrder

/-!
# Kept extras and declared fields

Keeping the extras of an object stores values under names that the caller has chosen. It never touches a
field that has a chain of its own (`validate_keeps_declared`): such a field was not put in the slot of its
object when the record was filled up, and before the extras phase no rule of the library writes in a slot
of that kind (`Rule.not_writes_slot`). So a field has the same value after the extras phase as before,
and stays away if it was dropped.
-/

namespace FlatRecord

/-- Every node that has a chain for its extras keeps them. -/
def Schema.KeepsExtras (s : Schema) : Prop :=
  s.EveryNode fun node => ∀ chain, node.extras = some chain → chain = [Rule.keepExtras.validator]

/-- Runs the chains of some phases, one phase after the other. -/
def runPhases (phases : List Phase) (full : SortedMap Key Chain) (w : Work) : Work :=
  runChains (phases.flatMap fun p => p.chains full) w

section Phases

variable {full : SortedMap Key Chain}

/-- Some phases in a row are run one part after the other. -/
theorem runPhases_append (phases phases' : List Phase) (full : SortedMap Key Chain) (w : Work) :
    runPhases (phases ++ phases') full w = runPhases phases' full (runPhases phases full w) := by
  unfold runPhases
  rw [List.flatMap_append, runChains_append]

/-- What each turn of some phases keeps, these phases keep. -/
theorem runPhases_invariant {P : Work → Prop} {phases : List Phase} {w : Work}
    (step : ∀ turn : Key × Chain, full.get? turn.1 = some turn.2 → Phase.of turn.1 ∈ phases →
      ∀ w, P w → P (turn.2.run turn.1 w)) (hw : P w) : P (runPhases phases full w) := by
  refine runChains_invariant (fun turn hturn w hw => ?_) hw
  obtain ⟨p, hp, hmem⟩ := List.mem_flatMap.1 hturn
  refine step turn (mem_chains_iff.1 hmem).1 ?_ w hw
  rw [Phase.of_eq_of_mem_chains hmem]
  exact hp

/-- A run goes through the extras phase after two phases, and through two more behind it. -/
theorem runChains_schedule (w : Work) : runChains (schedule full) w =
    runPhases [.after, .junk] full (runPhases [.extras] full (runPhases [.before, .main] full w)) := by
  rw [← runPhases_append, ← runPhases_append]
  rfl

end Phases

/-! ## The slots before the extras phase -/

section Slots

variable {rule : Rule} {chain : Chain} {key p : Key} {slot : Control} {data : FlatData}
  {allowed : Rule → Prop}

/-- A rule of the library writes in a slot only when it is applied to the slot. -/
theorem Rule.not_writes_slot (hkey : key ≠ p.slot slot) : ¬ rule.Writes key data (p.slot slot) := by
  rintro (hown | hother)
  · exact hkey hown.symm
  · -- All other keys under which a rule writes are those of fields.
    cases rule with
    | keepExtras =>
      obtain ⟨field, -, hsibling⟩ := hother
      exact Key.field_ne_slot hsibling.symm
    | spreadTags list =>
      obtain ⟨n, -, hitem⟩ := hother
      have hname : Naming.itemName list n = Key.field ⟨[.field list, .index n]⟩ "name" := rfl
      rw [hname] at hitem
      exact Key.field_ne_slot hitem.symm
    | _ => exact hother

/-- A chain of rules of the library leaves every slot but its own. -/
theorem Chain.OfRules.get?_run_slot (h : chain.OfRules allowed) (hkey : key ≠ p.slot slot) (w : Work) :
    (chain.run key w).data.get? (p.slot slot) = w.data.get? (p.slot slot) := by
  refine h.run_invariant (P := fun w' => w'.data.get? (p.slot slot) = w.data.get? (p.slot slot))
    (fun rule _ w' hw' => ?_) rfl
  rw [(rule.effect_apply key w').data _ (Rule.not_writes_slot hkey), hw']

end Slots

/-- The extras slots that are left have what the completed record has in them. -/
def Work.SlotsFrom (a : FlatData) (w : Work) : Prop :=
  ∀ (p : Key) (d : Datum), w.data.get? (p.slot .extras) = some d → a.get? (p.slot .extras) = some d

section Expand

variable {s : Schema} {r : Record} {f : FlatValues} {a : FlatData} {c : Context} {w : Work}
  {key p : Key} {chain : Chain}

/-- The two phases before the extras phase leave the extras slots as they were. -/
theorem Work.slotsFrom_runPhases (hlib : s.AllChains (Chain.OfRules fun _ => True)) :
    (runPhases [.before, .main] (Expansion.of s f).full
      (startWork (Expansion.of s f) a c)).SlotsFrom a := by
  refine runPhases_invariant (P := Work.SlotsFrom a) (fun turn hget hphase w hw p d hd => ?_)
    fun p d hd => hd
  have hrules : turn.2.OfRules fun _ => True := Expansion.of_get?_full hlib hget
  have hkey : turn.1 ≠ p.slot .extras := by
    intro he
    -- Extras slots have their turn in the third phase.
    have hextras : Phase.of turn.1 = .extras := by
      rw [he, Phase.of_eq_iff, Key.control?_slot]
      rfl
    rw [hextras] at hphase
    exact absurd hphase (by decide)
  rw [hrules.get?_run_slot hkey] at hd
  exact hw p d hd

namespace Schema

/-- In the extras phase of a schema that keeps extras every turn keeps those of one object. -/
theorem KeepsExtras.exists_slot (hkeep : s.KeepsExtras)
    (hget : (Expansion.of s f).full.get? key = some chain) (hkey : key.control? = some .extras) :
    ∃ p : Key, key = p.slot .extras ∧ chain = [Rule.keepExtras.validator] := by
  rcases Expansion.exists_of_get?_full hget with ⟨p, node, hnode, hmem⟩ | ⟨rfl, -⟩
  · rcases mem_ownEntries_iff.1 hmem with ⟨name, -, rfl⟩ | ⟨slot, -, hchain, rfl⟩
    · rw [Key.control?_field] at hkey
      cases hkey
    · -- The slot of a node to which the key leads, and such a node keeps extras.
      rw [Key.control?_slot, Option.some.injEq] at hkey
      subst hkey
      exact ⟨p, rfl, hkeep.descend hnode chain hchain⟩
  · rw [Key.control?_slot] at hkey
    cases hkey

end Schema

/-! ## The extras phase -/

/-- No field with a chain of its own is among the extras in a slot. -/
theorem Work.SlotsFrom.get?_bucket_eq_none (hw : w.SlotsFrom a) (hr : r.flatten = .ok f)
    (ha : (Expansion.of s f).complete f = .ok a) {name : String}
    (hfull : (Expansion.of s f).full.contains (p.field name) = true) : (w.bucket p).get? name = none := by
  unfold Work.bucket Work.datum
  cases hslot : w.data.get? (p.slot .extras) with
  | none => rfl
  | some d =>
    -- The slot is as it was at the start, when it had extras only.
    have hstart : (startWork (Expansion.of s f) a {}).bucket p =
        SortedMap.ofList (Presence.bucketFields d) := by
      unfold Work.bucket Work.datum startWork
      rw [hw p d hslot, Option.getD_some]
    rw [Option.getD_some, ← hstart]
    refine Option.eq_none_iff_forall_ne_some.2 fun v hv => ?_
    have hextra := ((Expansion.get?_bucket_startWork_iff hr ha).1 hv).2
    rw [hextra.1] at hfull
    cases hfull

/-- Keeping the extras of an object leaves the slots of other objects, and its own is empty. -/
theorem Work.SlotsFrom.run_keepExtras (hw : w.SlotsFrom a) :
    (Chain.run (p.slot .extras) [Rule.keepExtras.validator] w).SlotsFrom a := by
  intro q d hd
  by_cases hq : q = p
  · rw [hq, get?_run_keepExtras_slot] at hd
    cases hd
  · rw [get?_run_keepExtras_other (fun _ he => Key.field_ne_slot he.symm)
      fun he => hq (Key.slot_inj.1 he).1] at hd
    exact hw q d hd

/-- Keeping the extras of an object leaves every field with a chain of its own. -/
theorem Work.SlotsFrom.get?_run_keepExtras (hw : w.SlotsFrom a) (hr : r.flatten = .ok f)
    (ha : (Expansion.of s f).complete f = .ok a) (hfull : (Expansion.of s f).full.contains key = true)
    (hkey : key.control? = none) :
    (Chain.run (p.slot .extras) [Rule.keepExtras.validator] w).data.get? key = w.data.get? key := by
  by_cases hfield : ∃ name, key = p.field name
  · obtain ⟨name, rfl⟩ := hfield
    rw [get?_run_keepExtras_field, hw.get?_bucket_eq_none hr ha hfull, Option.map_none, Option.none_or]
  · refine get?_run_keepExtras_other (not_exists.1 hfield) fun hslot => ?_
    rw [hslot, Key.control?_slot] at hkey
    cases hkey

/-- The extras phase leaves every field with a chain of its own. -/
theorem Work.SlotsFrom.get?_runPhases_extras (hw : w.SlotsFrom a) (hkeep : s.KeepsExtras)
    (hr : r.flatten = .ok f) (ha : (Expansion.of s f).complete f = .ok a)
    (hfull : (Expansion.of s f).full.contains key = true) (hkey : key.control? = none) :
    (runPhases [.extras] (Expansion.of s f).full w).data.get? key = w.data.get? key := by
  -- The slots that are still to come are as they were, and the field has been left so far.
  refine (runPhases_invariant (P := fun w' => w'.SlotsFrom a ∧ w'.data.get? key = w.data.get? key)
    (fun turn hget hphase w' hw' => ?_) ⟨hw, rfl⟩).2
  obtain ⟨p, hslot, hchain⟩ :=
    hkeep.exists_slot hget (Phase.of_eq_iff.1 (List.mem_singleton.1 hphase))
  rw [hslot, hchain]
  exact ⟨hw'.1.run_keepExtras, (hw'.1.get?_run_keepExtras hr ha hfull hkey).trans hw'.2⟩

/-- Kept extras never overwrite a field that the schema declares: when the rules are those of the library
and extras are kept wherever a chain deals with them, every field with a chain of its own has the value
after the extras phase that it had before, or none if it had none. -/
theorem validate_keeps_declared {o : Outcome} (hlib : s.AllChains (Chain.OfRules fun _ => True))
    (hkeep : s.KeepsExtras) (ho : validate r s c = .ok o) :
    ∃ f a w w', r.flatten = .ok f ∧ (Expansion.of s f).complete f = .ok a ∧
      w = runPhases [.before, .main] (Expansion.of s f).full
        (startWork (Expansion.of s f) a { c with schemaKeys := s.fieldNames }) ∧
      w' = runPhases [.extras] (Expansion.of s f).full w ∧
      o = (runPhases [.after, .junk] (Expansion.of s f).full w').outcome
        (if c.fixPartialUpdates then emptyLists r else []) ∧
      ∀ key, (Expansion.of s f).full.contains key = true → key.control? = none →
        w'.data.get? key = w.data.get? key := by
  obtain ⟨f, _, hr, hrun, rfl⟩ := validate_eq_ok_iff.1 ho
  obtain ⟨a, ha, rfl⟩ := validateFlat_eq_ok_iff.1 hrun
  refine ⟨f, a, _, _, hr, ha, rfl, rfl, ?_, fun key hfull hkey => ?_⟩
  · rw [runChains_schedule]
  · exact (Work.slotsFrom_runPhases hlib).get?_runPhases_extras hkeep hr ha hfull hkey

end Expand

/-- Objects on two levels that keep what they do not name, with a field that is dropped, one that is filled
in, and a flag. -/
def curated : Schema where
  fields := [
    ("code", .leaf [Rule.ignore.validator]),
    ("kind", .leaf [(Rule.default (.str "plain")).validator]),
    ("parts", .sub {
      fields := [("spare", .leaf [Rule.flag.validator])]
      extras := some [Rule.keepExtras.validator] })]
  extras := some [Rule.keepExtras.validator]

/-- A record for it with extras on both levels, some of them objects that have fields of declared names. -/
def annotated : Record where
  entries := [("code", .int 7), ("note", .obj [("code", .int 8)]),
    ("parts", .arr [.obj [("colour", .str "red"), ("spare", .null)], .obj [("kind", .int 9)]])]
  sorted := by decide

/-- Extras that have fields of declared names change no declared value. -/
theorem validate_keeps_declared_annotated :
    curated.AllChains (Chain.OfRules fun _ => True) ∧ curated.KeepsExtras ∧
    ∃ o, validate annotated curated {} = .ok o ∧
      o.data.entries = [("kind", .str "plain"), ("note", .obj [("code", .int 8)]),
        ("parts", .arr [.obj [("colour", .str "red"), ("spare", .bool false)],
          .obj [("kind", .int 9), ("spare", .bool false)]])] ∧
      ∃ f a w w', annotated.flatten = .ok f ∧ (Expansion.of curated f).complete f = .ok a ∧
        w = runPhases [.before, .main] (Expansion.of curated f).full
          (startWork (Expansion.of curated f) a { schemaKeys := curated.fieldNames }) ∧
        w' = runPhases [.extras] (Expansion.of curated f).full w ∧
        o = (runPhases [.after, .junk] (Expansion.of curated f).full w').outcome [] ∧
        ∀ key, (Expansion.of curated f).full.contains key = true → key.control? = none →
          w'.data.get? key = w.data.get? key := by
  have hlib : curated.AllChains (Chain.OfRules fun _ => True) := by
    refine ⟨⟨Chain.ofRules_map [.ignore], Chain.ofRules_map [.default (.str "plain")],
      ⟨⟨Chain.ofRules_map [.flag], trivial⟩, fun slot chain hchain => ?_⟩, trivial⟩,
      fun slot chain hchain => ?_⟩
    all_goals
      cases slot with
      | extras =>
        cases hchain
        exact Chain.ofRules_map [.keepExtras]
      | _ => cases hchain
  have hkeep : curated.KeepsExtras := by
    refine .of_fields (fun chain hchain => (Option.some.inj hchain).symm) fun name inner hfield => ?_
    obtain ⟨-, rfl⟩ : name = "parts" ∧ inner = _ := by simpa [curated] using hfield
    refine .of_fields (fun chain hchain => (Option.some.inj hchain).symm) fun name inner hfield => ?_
    simp at hfield
  obtain ⟨o, ho⟩ : ∃ o, validate annotated curated {} = .ok o := ⟨_, rfl⟩
  refine ⟨hlib, hkeep, o, ho, ?_, validate_keeps_declared hlib hkeep ho⟩
  cases ho
  rfl

end FlatRecord
