import FlatRecord.Proofs.Rule.Effects
import FlatRecord.Validation

/-!
# Runs over a record

What holds at the start of a run and is kept by every validator holds at its end: `Chain.run_invariant`
for the chain of one key and `runChains_invariant` for a list of turns. So the rules of the library take
back no message in a run (`extends_runChains`).

`exists_schedule_eq_append` says what has run when a field has its turn: the chains before the main
phase, and the chains of the fields with lesser keys.
-/

namespace FlatRecord

/-! ## Chains -/

namespace Chain

variable {P : Work → Prop} {chain : Chain} {key : Key} {w : Work} {allowed : Rule → Prop}

/-- The chain consists of rules of the library that are allowed. -/
def OfRules (allowed : Rule → Prop) (chain : Chain) : Prop :=
  ∃ rules : List Rule, chain = rules.map Rule.validator ∧ ∀ rule ∈ rules, allowed rule

/-- The validators of some rules are a chain of rules of the library. -/
theorem ofRules_map (rules : List Rule) : Chain.OfRules (fun _ => True) (rules.map Rule.validator) :=
  ⟨rules, rfl, fun _ _ => trivial⟩

/-- A chain goes on after its first validator unless that stops it. -/
theorem run_cons (v : Validator) (rest : Chain) (key : Key) (w : Work) :
    Chain.run key (v :: rest) w =
      if (v.apply key w).2 then (v.apply key w).1 else rest.run key (v.apply key w).1 := rfl

/-- What each validator of a chain keeps, the chain keeps. -/
theorem run_invariant (step : ∀ v ∈ chain, ∀ w, P w → P (v.apply key w).1) (hw : P w) :
    P (chain.run key w) := by
  induction chain generalizing w with
  | nil => exact hw
  | cons v rest ih =>
    have hv : P (v.apply key w).1 := step v List.mem_cons_self w hw
    rw [run_cons]
    split
    · exact hv
    · exact ih (fun v' hv' => step v' (List.mem_cons_of_mem _ hv')) hv

/-- What each allowed rule keeps, a chain of allowed rules keeps. -/
theorem OfRules.run_invariant (h : chain.OfRules allowed)
    (step : ∀ rule, allowed rule → ∀ w, P w → P (rule.validator.apply key w).1) (hw : P w) :
    P (chain.run key w) := by
  obtain ⟨rules, rfl, hrules⟩ := h
  refine Chain.run_invariant (fun v hv => ?_) hw
  obtain ⟨rule, hrule, rfl⟩ := List.mem_map.1 hv
  exact step rule (hrules rule hrule)

/-- A chain of rules of the library takes back no message. -/
theorem OfRules.extends_run (h : chain.OfRules allowed) (key : Key) (w : Work) :
    w.messages.Extends (chain.run key w).messages := by
  -- The messages at the start come first at any time.
  refine h.run_invariant (P := fun w' => w.messages.Extends w'.messages) ?_ (.refl _)
  exact fun rule _ w' hw' => hw'.trans (rule.effect_apply key w').messages

end Chain

/-! ## Turns -/

section Turns

variable {P : Work → Prop} {turns : List (Key × Chain)} {w : Work} {allowed : Rule → Prop}

/-- What the chain of each turn keeps, a run keeps. -/
theorem runChains_invariant (step : ∀ turn ∈ turns, ∀ w, P w → P (turn.2.run turn.1 w)) (hw : P w) :
    P (runChains turns w) := by
  refine @foldl_induction _ _ _ (fun _ w => P w) turns w hw fun done turn rest w' hturns hw' => ?_
  have hturn : turn ∈ turns := by
    rw [hturns]
    exact List.mem_append_right _ List.mem_cons_self
  exact step turn hturn w' hw'

/-- Some turns in a row are taken one part after the other. -/
theorem runChains_append (turns turns' : List (Key × Chain)) (w : Work) :
    runChains (turns ++ turns') w = runChains turns' (runChains turns w) :=
  List.foldl_append

/-- A run of rules of the library takes back no message. -/
theorem extends_runChains (h : ∀ turn ∈ turns, turn.2.OfRules allowed) (w : Work) :
    w.messages.Extends (runChains turns w).messages := by
  refine runChains_invariant (P := fun w' => w.messages.Extends w'.messages) ?_ (.refl _)
  exact fun turn hturn w' hw' => hw'.trans ((h turn hturn).extends_run turn.1 w')

end Turns

/-! ## Schedules -/

section Schedule

variable {full : SortedMap Key Chain} {key : Key} {chain : Chain}

/-- The turns of a phase are the chains under the keys that it includes. -/
theorem mem_chains_iff {p : Phase} {turn : Key × Chain} :
    turn ∈ p.chains full ↔ full.get? turn.1 = some turn.2 ∧ p.includes turn.1 = true := by
  rw [SortedMap.get?_eq_some_iff]
  unfold Phase.chains
  dsimp only
  split
  · rw [List.mem_reverse, List.mem_filter]
  · exact List.mem_filter

/-- Every turn of a schedule is that of a key with a chain. -/
theorem get?_of_mem_schedule {turn : Key × Chain} (h : turn ∈ schedule full) :
    full.get? turn.1 = some turn.2 := by
  obtain ⟨p, -, hturn⟩ := List.mem_flatMap.1 h
  exact (mem_chains_iff.1 hturn).1

/-- The keys of the first phase end in the slot before. -/
theorem control?_of_includes_before (h : Phase.includes .before key = true) :
    key.control? = some .before := by
  unfold Phase.includes Phase.of at h
  cases hc : key.control? with
  | none => simp [hc] at h
  | some c => cases c <;> simp [hc] at h ⊢

/-- The keys of the main phase end in no slot. -/
theorem control?_of_includes_main : Phase.includes .main key = true ↔ key.control? = none := by
  unfold Phase.includes Phase.of
  cases hc : key.control? with
  | none => simp
  | some c => cases c <;> simp

/-- When a field has its turn, only chains before the main phase and fields with lesser keys have had
theirs. -/
theorem exists_schedule_eq_append (hchain : full.get? key = some chain)
    (hmain : key.control? = none) : ∃ earlier later,
      schedule full = earlier ++ (key, chain) :: later ∧ ∀ turn ∈ earlier,
        full.get? turn.1 = some turn.2 ∧ (turn.1.control? = some .before ∨
          (turn.1.control? = none ∧ compare turn.1 key = .lt)) := by
  have hmem : (key, chain) ∈ Phase.chains .main full :=
    mem_chains_iff.2 ⟨hchain, control?_of_includes_main.2 hmain⟩
  obtain ⟨lesser, greater, hsplit⟩ := List.append_of_mem hmem
  have hsorted : Ascending.Sorted (Phase.chains .main full) := full.sorted.sublist List.filter_sublist
  have hlt : ∀ turn ∈ lesser, compare turn.1 key = .lt := by
    intro turn hturn
    unfold Ascending.Sorted at hsorted
    rw [hsplit, List.pairwise_append] at hsorted
    exact hsorted.2.2 turn hturn (key, chain) List.mem_cons_self
  -- The phases follow each other, and the main one goes through its keys in order.
  refine ⟨Phase.chains .before full ++ lesser, greater ++ (Phase.chains .extras full ++
    (Phase.chains .after full ++ Phase.chains .junk full)), ?_, fun turn hturn => ?_⟩
  · show Phase.chains .before full ++ (Phase.chains .main full ++ (Phase.chains .extras full ++
      (Phase.chains .after full ++ (Phase.chains .junk full ++ [])))) = _
    rw [hsplit]
    simp
  · rcases List.mem_append.1 hturn with hturn | hturn
    · obtain ⟨hget, hincludes⟩ := mem_chains_iff.1 hturn
      exact ⟨hget, .inl (control?_of_includes_before hincludes)⟩
    · -- A turn of the main phase before that of the field.
      have hmain' : turn ∈ Phase.chains .main full := by
        rw [hsplit]
        exact List.mem_append_left _ hturn
      obtain ⟨hget, hincludes⟩ := mem_chains_iff.1 hmain'
      exact ⟨hget, .inr ⟨control?_of_includes_main.1 hincludes, hlt turn hturn⟩⟩

end Schedule

/-! ## Outcomes -/

/-- A flat record is validated by completing it and running all chains. -/
theorem validateFlat_eq_ok_iff {f : FlatValues} {s : Schema} {c : Context} {w : Work} :
    validateFlat f s c = .ok w ↔ ∃ a, (Expansion.of s f).complete f = .ok a ∧
      w = runChains (schedule (Expansion.of s f).full) (startWork (Expansion.of s f) a c) := by
  unfold validateFlat
  dsimp only
  cases (Expansion.of s f).complete f with
  | error e => exact ⟨nofun, fun ⟨a, ha, _⟩ => nomatch ha⟩
  | ok a =>
    rw [Except.map, Except.ok.injEq]
    constructor
    · rintro rfl
      exact ⟨a, rfl, rfl⟩
    · rintro ⟨_, ⟨⟩, rfl⟩
      rfl

/-- A record is validated by flattening it and validating what it was flattened to. -/
theorem validate_eq_ok_iff {r : Record} {s : Schema} {c : Context} {o : Outcome} :
    validate r s c = .ok o ↔ ∃ f w, r.flatten = .ok f ∧
      validateFlat f s { c with schemaKeys := s.fieldNames } = .ok w ∧
      o = w.outcome (if c.fixPartialUpdates then emptyLists r else []) := by
  unfold validate
  cases r.flatten with
  | error e => exact ⟨nofun, fun ⟨f, w, hf, _⟩ => nomatch hf⟩
  | ok f =>
    dsimp only [bind, Except.bind]
    cases hrun : validateFlat f s { c with schemaKeys := s.fieldNames } with
    | error e =>
      -- Both sides name the same flat record, whose run has failed.
      refine ⟨nofun, ?_⟩
      rintro ⟨_, w, ⟨⟩, hw, -⟩
      rw [hrun] at hw
      cases hw
    | ok w =>
      constructor
      · rintro ⟨⟩
        exact ⟨f, w, rfl, hrun, rfl⟩
      · rintro ⟨_, w', ⟨⟩, hw, rfl⟩
        rw [hrun] at hw
        cases hw
        rfl

/-- A record has an outcome when it can be flattened and completed: no validator takes it away. -/
theorem exists_validate_iff {r : Record} {s : Schema} {c : Context} :
    (∃ o, validate r s c = .ok o) ↔
      ∃ f, r.flatten = .ok f ∧ ∃ a, (Expansion.of s f).complete f = .ok a := by
  simp only [validate_eq_ok_iff, validateFlat_eq_ok_iff]
  constructor
  · rintro ⟨o, f, w, hr, ⟨a, ha, -⟩, -⟩
    exact ⟨f, hr, a, ha⟩
  · rintro ⟨f, hr, a, ha⟩
    exact ⟨_, f, _, hr, ⟨a, ha, rfl⟩, rfl⟩

/-- In a valid outcome no key has a message. -/
theorem eq_nil_of_isEmpty_fieldErrors {m : Messages} (h : m.fieldErrors.isEmpty = true) {key : Key}
    {l : List String} (hl : m.get? key = some l) : l = [] := by
  unfold Messages.fieldErrors at h
  rw [List.isEmpty_iff, List.flatMap_eq_nil_iff] at h
  have hmem : (key, l) ∈ m.entries := (SortedMap.get?_eq_some_iff m).1 hl
  exact List.map_eq_nil_iff.1 (h (key, l) hmem)

/-- A name under which an empty list is put back has a value then, and the others have what they had. -/
theorem get?_putBack (names : List String) (r : Record) (name : String) :
    (putBack names r).get? name =
      if name ∈ names then some ((r.get? name).getD (.arr [])) else r.get? name :=
  SortedMap.get?_foldl_insertIfNew r names _ name

/-- What a record has after empty lists were put back it had before, or it is one of these lists. -/
theorem of_get?_putBack {names : List String} {r : Record} {name : String} {v : Json}
    (h : (putBack names r).get? name = some v) :
    r.get? name = some v ∨ (name ∈ names ∧ v = .arr []) := by
  rw [get?_putBack] at h
  by_cases hmem : name ∈ names
  · -- The empty list is put back where no value is.
    rw [if_pos hmem, Option.some.injEq] at h
    cases hget : r.get? name with
    | none =>
      rw [hget, Option.getD_none] at h
      exact .inr ⟨hmem, h.symm⟩
    | some v' =>
      rw [hget, Option.getD_some] at h
      exact .inl (congrArg some h)
  · rw [if_neg hmem] at h
    exact .inl h

/-- The names under which empty lists are put back are those of empty lists of the record. -/
theorem get?_of_mem_restored {r : Record} {c : Context} {name : String}
    (h : name ∈ if c.fixPartialUpdates then emptyLists r else []) : r.get? name = some (.arr []) := by
  split at h
  · -- The names are those of fields whose value is the empty list.
    obtain ⟨v, hv⟩ := SortedMap.mem_keys_iff.1 h
    obtain ⟨hget, hempty⟩ := SortedMap.get?_filter_eq_some_iff.1 hv
    rw [hget]
    cases v with
    | arr items => cases items with
      | nil => rfl
      | cons item rest => cases hempty
    | _ => cases hempty
  · cases h

end FlatRecord
