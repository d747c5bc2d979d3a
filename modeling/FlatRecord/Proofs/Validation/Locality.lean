import FlatRecord.Proofs.Validation.Schedule

/-!
# Value validators work on one value

A chain of validators that convert values can be run on a value alone: `Chain.runAlone` threads the
value through the chain and collects the messages, with no record around it. A run over a record whose
chains are all of this kind comes to the same at every key (`validateFlat_local`), so what happens at a
key depends on its chain and its value in the completed record, and on nothing else.

`Chain.run_at` is the step: the chain of a key does to the key what it does alone. The chains of other
keys leave the key as it is (`effect_runChains`), and in the schedule every key has one turn.
-/

namespace FlatRecord

/-! ## A chain alone -/

/-- The value in a flat record under validation; no entry is a missing value. -/
def FlatData.datum (data : FlatData) (key : Key) : Datum := (data.get? key).getD .missing

namespace Chain

/-- All validators of a chain convert values. -/
def OfValues (chain : Chain) : Prop := ∀ v ∈ chain, v.isValueValidator = true

/-- What a chain makes of a value alone: the value in the end, and the messages. A complaint leaves the
value, and a stop ends the chain. -/
def runAlone (c : Context) : Chain → Datum → Datum × List String
  | [], d => (d, [])
  | v :: rest, d => match v.convert d c with
    | .ok d' => runAlone c rest d'
    | .error (.invalid complaint) =>
      let (d', messages) := runAlone c rest d
      (d', complaint.message :: messages)
    | .error .stop => (d, [])

section Alone

variable {c : Context} {v : Validator} {rest : Chain} {d d' : Datum} {complaint : Complaint}

/-- A validator that converts the value hands it to the rest of the chain. -/
theorem runAlone_cons_ok (h : v.convert d c = .ok d') :
    runAlone c (v :: rest) d = runAlone c rest d' := by
  rw [runAlone, h]

/-- A complaint is recorded, and the rest of the chain gets the value as it was. -/
theorem runAlone_cons_invalid (h : v.convert d c = .error (.invalid complaint)) :
    runAlone c (v :: rest) d =
      ((runAlone c rest d).1, complaint.message :: (runAlone c rest d).2) := by
  rw [runAlone, h]

/-- A stop ends the chain with the value as it was. -/
theorem runAlone_cons_stop (h : v.convert d c = .error .stop) :
    runAlone c (v :: rest) d = (d, []) := by
  rw [runAlone, h]

end Alone

variable {chain : Chain} {key : Key} {w : Work}

/-- A chain of value validators changes the value and the messages of its key only. -/
theorem OfValues.effect_run (h : chain.OfValues) (key : Key) (w : Work) :
    w.Effect (· = key) (· = key) (chain.run key w) := by
  refine run_invariant (P := fun w' => w.Effect (· = key) (· = key) w') ?_ (.refl w)
  intro v hv w' hw'
  exact hw'.trans (v.effect_apply_value (h v hv) key w')

/-- A chain of value validators does to its key what it does alone. -/
theorem OfValues.run_at (h : chain.OfValues) {messages : List String}
    (hmessages : w.messages.get? key = some messages) :
    (chain.run key w).datum key = (chain.runAlone w.context (w.datum key)).1 ∧
      (chain.run key w).messages.get? key =
        some (messages ++ (chain.runAlone w.context (w.datum key)).2) := by
  induction chain generalizing w messages with
  | nil =>
    rw [runAlone, List.append_nil]
    exact ⟨rfl, hmessages⟩
  | cons v rest ih =>
    have hv : v.isValueValidator = true := h v List.mem_cons_self
    have hrest : OfValues rest := fun v' hv' => h v' (List.mem_cons_of_mem _ hv')
    rw [run_cons, v.apply_of_isValueValidator hv]
    cases hconvert : v.convert (w.datum key) w.context with
    -- A converted value is stored, and the rest of the chain runs on it.
    | ok d =>
      have hdatum : (w.store key d).datum key = d := by
        unfold Work.datum Work.store
        dsimp only
        rw [SortedMap.get?_insert_self, Option.getD_some]
      have hstored := ih hrest (w := w.store key d) hmessages
      rw [hdatum] at hstored
      rw [runAlone_cons_ok hconvert]
      exact hstored
    | error signal =>
      cases signal with
      -- A message is recorded, and the rest runs on the value as it is.
      | invalid complaint =>
        have hreported : (w.report key complaint.message).messages.get? key =
            some (messages ++ [complaint.message]) := by
          rw [Work.get?_report, if_pos rfl, hmessages, Option.getD_some]
        have hrun := ih hrest hreported
        rw [List.append_assoc, List.singleton_append] at hrun
        rw [runAlone_cons_invalid hconvert]
        exact hrun
      -- The rest is left out.
      | stop =>
        rw [runAlone_cons_stop hconvert, List.append_nil]
        exact ⟨rfl, hmessages⟩

end Chain

/-! ## A run -/

section Turns

variable {turns : List (Key × Chain)} {w : Work}

/-- A run of value validators changes the values and the messages of the keys that have a turn only. -/
theorem effect_runChains (h : ∀ turn ∈ turns, turn.2.OfValues) (w : Work) :
    w.Effect (· ∈ turns.map (·.1)) (· ∈ turns.map (·.1)) (runChains turns w) := by
  refine runChains_invariant
    (P := fun w' => w.Effect (· ∈ turns.map (·.1)) (· ∈ turns.map (·.1)) w') ?_ (.refl w)
  intro turn hturn w' hw'
  have hkey : ∀ k, k = turn.1 → k ∈ turns.map (·.1) := by
    rintro k rfl
    exact List.mem_map.2 ⟨turn, hturn, rfl⟩
  exact hw'.trans (((h turn hturn).effect_run turn.1 w').imp hkey hkey)

/-- A run in which a key has one turn does to the key what its chain does alone. -/
theorem runChains_at (h : ∀ turn ∈ turns, turn.2.OfValues) (hnodup : (turns.map (·.1)).Nodup)
    {key : Key} {chain : Chain} (hturn : (key, chain) ∈ turns) {messages : List String}
    (hmessages : w.messages.get? key = some messages) :
    (runChains turns w).datum key = (chain.runAlone w.context (w.datum key)).1 ∧
      (runChains turns w).messages.get? key =
        some (messages ++ (chain.runAlone w.context (w.datum key)).2) := by
  obtain ⟨earlier, later, rfl⟩ := List.append_of_mem hturn
  rw [List.map_append, List.map_cons] at hnodup
  -- The key has no other turn, before or after.
  have hearlier : key ∉ earlier.map (·.1) := fun hmem =>
    (List.nodup_append.1 hnodup).2.2 key hmem key List.mem_cons_self rfl
  have hlater : key ∉ later.map (·.1) :=
    (List.nodup_cons.1 (List.nodup_append.1 hnodup).2.1).1
  have hbefore := effect_runChains (fun turn hmem => h turn (List.mem_append_left _ hmem)) w
  have hchain : chain.OfValues := h (key, chain) hturn
  rw [runChains_append]
  generalize runChains earlier w = w₁ at hbefore ⊢
  have hcontext : w₁.context = w.context := hbefore.context
  -- The chains before it leave its value and its messages.
  have hdatum : w₁.datum key = w.datum key := by
    unfold Work.datum
    rw [hbefore.data key hearlier]
  have hquiet : w₁.messages.get? key = some messages := by
    rw [hbefore.quiet key hearlier, hmessages]
  -- The chain of the key runs on the value and the messages of the start, and later chains leave what
  -- it makes of them.
  have hafter := effect_runChains
    (fun turn hmem => h turn (List.mem_append_right _ (List.mem_cons_of_mem _ hmem)))
    (chain.run key w₁)
  obtain ⟨hvalue, hreports⟩ := hchain.run_at hquiet
  rw [hcontext, hdatum] at hvalue hreports
  show (runChains later (chain.run key w₁)).datum key = _ ∧
    (runChains later (chain.run key w₁)).messages.get? key = _
  unfold Work.datum at hvalue ⊢
  rw [hafter.data key hlater, hafter.quiet key hlater]
  exact ⟨hvalue, hreports⟩

end Turns

/-! ## Validation -/

section Validation

variable {s : Schema} {f : FlatValues} {c : Context} {a : FlatData} {w : Work} {key : Key}
  {chain : Chain}

/-- The turns of an expansion are of value validators if the chains of the schema are. -/
theorem ofValues_of_mem_schedule (hs : s.AllChains Chain.OfValues) {turn : Key × Chain}
    (hturn : turn ∈ schedule (Expansion.of s f).full) : turn.2.OfValues :=
  Expansion.of_get?_full hs (get?_of_mem_schedule hturn)

/-- At a key with a chain a run comes to what the chain makes of the value alone. -/
theorem validateFlat_at (hs : s.AllChains Chain.OfValues)
    (ha : (Expansion.of s f).complete f = .ok a) (hw : validateFlat f s c = .ok w)
    (hchain : (Expansion.of s f).full.get? key = some chain) :
    w.datum key = (chain.runAlone c (FlatData.datum a key)).1 ∧
      w.messages.get? key = some (chain.runAlone c (FlatData.datum a key)).2 := by
  obtain ⟨a', ha', rfl⟩ := validateFlat_eq_ok_iff.1 hw
  cases ha.symm.trans ha'
  -- At the start every key with a chain has an empty list of messages.
  have hstart : (startWork (Expansion.of s f) a c).messages.get? key = some [] := by
    show ((Expansion.of s f).full.map fun _ => []).get? key = some []
    rw [SortedMap.get?_map, hchain, Option.map_some]
  have hrun := runChains_at (fun turn hturn => ofValues_of_mem_schedule hs hturn)
    (nodup_keys_schedule _) (Expansion.mem_schedule_of_get?_full hchain) hstart
  rw [List.nil_append] at hrun
  exact hrun

/-- At a key without a chain a run leaves the completed record, and has no messages. -/
theorem validateFlat_at_none (hs : s.AllChains Chain.OfValues)
    (ha : (Expansion.of s f).complete f = .ok a) (hw : validateFlat f s c = .ok w)
    (hchain : (Expansion.of s f).full.get? key = none) :
    w.data.get? key = a.get? key ∧ w.messages.get? key = none := by
  obtain ⟨a', ha', rfl⟩ := validateFlat_eq_ok_iff.1 hw
  cases ha.symm.trans ha'
  have heffect := effect_runChains
    (fun turn hturn => ofValues_of_mem_schedule (f := f) hs hturn) (startWork (Expansion.of s f) a c)
  -- A key without a chain has no turn, so no chain changes what is there.
  have hturn : key ∉ (schedule (Expansion.of s f).full).map (·.1) := by
    intro hmem
    obtain ⟨turn, hturn, rfl⟩ := List.mem_map.1 hmem
    rw [get?_of_mem_schedule hturn] at hchain
    cases hchain
  refine ⟨heffect.data key hturn, (heffect.quiet key hturn).trans ?_⟩
  show ((Expansion.of s f).full.map fun _ => []).get? key = none
  rw [SortedMap.get?_map, hchain, Option.map_none]

/-- What a run of value validators leaves: under each key with a chain what the chain makes of the value
in the completed record alone, with the messages of that chain; under every other key what the completed
record has, and no messages. So the chains and values of two runs that agree at a key give the same
there, whatever they are at other keys. -/
theorem validateFlat_local (hs : s.AllChains Chain.OfValues) (hw : validateFlat f s c = .ok w) :
    ∃ a, (Expansion.of s f).complete f = .ok a ∧
      (∀ key chain, (Expansion.of s f).full.get? key = some chain →
        (w.datum key, w.messages.get? key) =
          ((chain.runAlone c (FlatData.datum a key)).1,
            some (chain.runAlone c (FlatData.datum a key)).2)) ∧
      (∀ key, (Expansion.of s f).full.get? key = none →
        w.data.get? key = a.get? key ∧ w.messages.get? key = none) ∧
      ∀ s' f' w' a' key chain, s'.AllChains Chain.OfValues → validateFlat f' s' c = .ok w' →
        (Expansion.of s' f').complete f' = .ok a' →
        (Expansion.of s f).full.get? key = some chain →
        (Expansion.of s' f').full.get? key = some chain →
        FlatData.datum a key = FlatData.datum a' key →
        w.datum key = w'.datum key ∧ w.messages.get? key = w'.messages.get? key := by
  obtain ⟨a, ha, -⟩ := validateFlat_eq_ok_iff.1 hw
  refine ⟨a, ha, fun key chain hchain => ?_, fun key hchain => ?_, ?_⟩
  · obtain ⟨hvalue, hmessages⟩ := validateFlat_at hs ha hw hchain
    rw [hvalue, hmessages]
  · exact validateFlat_at_none hs ha hw hchain
  · intro s' f' w' a' key chain hs' hw' ha' hchain hchain' hdatum
    obtain ⟨hvalue, hmessages⟩ := validateFlat_at hs ha hw hchain
    obtain ⟨hvalue', hmessages'⟩ := validateFlat_at hs' ha' hw' hchain'
    rw [hvalue, hmessages, hvalue', hmessages', hdatum]
    exact ⟨rfl, rfl⟩

end Validation

/-- A field whose chain stops before it complains, one whose chain complains and goes on, and one that
the record lacks. -/
def halting : Schema where
  fields := [
    ("a", .leaf [.converter fun _ => .error .stop, .converter fun _ => .error (.invalid .missing)]),
    ("b", .leaf [.converter fun _ => .error (.invalid .notNumber),
      .stateful fun d _ => .ok (.value (.bool d.isNull))]),
    ("c", .leaf [.valueContext fun _ _ => .ok (.value .null)])]

/-- A flat record for it, with an entry that the schema does not describe. -/
def haltingFlat : FlatValues := .ofList [
  (⟨[.field "a"]⟩, .int 1), (⟨[.field "b"]⟩, .null), (⟨[.field "d", .index 0, .field "e"]⟩, .int 2)]

/-- Of three chains one is stopped at once, one complains and converts its value all the same, and one
supplies a value. -/
theorem validateFlat_local_halting :
    halting.AllChains Chain.OfValues ∧ ∃ w, validateFlat haltingFlat halting {} = .ok w ∧
      (w.datum ⟨[.field "a"]⟩ = .value (.int 1) ∧ w.messages.get? ⟨[.field "a"]⟩ = some []) ∧
      (w.datum ⟨[.field "b"]⟩ = .value (.bool true) ∧
        w.messages.get? ⟨[.field "b"]⟩ = some [Complaint.notNumber.message]) ∧
      (w.datum ⟨[.field "c"]⟩ = .value .null ∧ w.messages.get? ⟨[.field "c"]⟩ = some []) ∧
      ∃ a, (Expansion.of halting haltingFlat).complete haltingFlat = .ok a ∧
        (∀ key chain, (Expansion.of halting haltingFlat).full.get? key = some chain →
          (w.datum key, w.messages.get? key) =
            ((chain.runAlone {} (FlatData.datum a key)).1,
              some (chain.runAlone {} (FlatData.datum a key)).2)) ∧
        ∀ key, (Expansion.of halting haltingFlat).full.get? key = none →
          w.data.get? key = a.get? key ∧ w.messages.get? key = none := by
  have hs : halting.AllChains Chain.OfValues := by
    refine ⟨⟨?_, ?_, ?_, trivial⟩, fun slot chain hchain => by cases slot <;> cases hchain⟩
    all_goals
      show Chain.OfValues _
      simp [Chain.OfValues, Validator.isValueValidator]
  obtain ⟨w, hw⟩ : ∃ w, validateFlat haltingFlat halting {} = .ok w := ⟨_, rfl⟩
  obtain ⟨a, ha, hown, hother, -⟩ := validateFlat_local hs hw
  refine ⟨hs, w, hw, ?_, ?_, ?_, a, ha, hown, hother⟩
  all_goals
    cases hw
    exact ⟨rfl, rfl⟩

end FlatRecord
