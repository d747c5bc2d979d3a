import FlatRecord.Proofs.Validation.Schedule
import FlatRecord.Proofs.Validation.Trace

/-!
# The order of a run

The keys of a run come in five phases (`PhaseOrdered`), and every key with a chain comes once
(`validateFlat_in_phases`). Within a phase the keys are in key order or in its reverse, and key order is
by length first: so the chains before of an outer object start ahead of those of the objects inside it,
and the chains after behind them.
-/

namespace FlatRecord

/-- Of two members of an ordered list the one that the order puts first comes first. -/
theorem sublist_pair_of_pairwise {α : Type} {R : α → α → Prop} {l : List α} (hl : l.Pairwise R)
    {a b : α} (ha : a ∈ l) (hb : b ∈ l) (hne : a ≠ b) (hba : ¬ R b a) : [a, b].Sublist l := by
  induction l with
  | nil => cases ha
  | cons x rest ih =>
    obtain ⟨hx, hrest⟩ := List.pairwise_cons.1 hl
    rcases List.mem_cons.1 ha with rfl | ha'
    · -- The first member is at the head, and the other one is among the rest.
      have hb' : b ∈ rest := (List.mem_cons.1 hb).resolve_left hne.symm
      exact (List.singleton_sublist.2 hb').cons_cons a
    · rcases List.mem_cons.1 hb with rfl | hb'
      · -- The second one cannot be at the head, as the order does not put it first.
        exact absurd (hx a ha') hba
      · exact (ih hrest ha' hb').cons x

namespace Phase

variable {p : Phase} {full : SortedMap Key Chain} {key : Key}

/-- The keys that have a turn in a phase. -/
def keys (p : Phase) (full : SortedMap Key Chain) : List Key := (p.chains full).map (·.1)

/-- The keys of a phase end in its slot. -/
theorem control?_of_mem_keys (h : key ∈ p.keys full) : key.control? = p.slot? := by
  obtain ⟨turn, hturn, rfl⟩ := List.mem_map.1 h
  exact of_eq_iff.1 (of_eq_of_mem_chains hturn)

/-- The keys of a phase ascend, the phase after apart. -/
theorem pairwise_keys (hp : p ≠ after) : (p.keys full).Pairwise fun k l => compare k l = .lt := by
  unfold keys chains
  rw [if_neg hp]
  exact full.pairwise_keys.sublist (List.filter_sublist.map _)

/-- The keys of the phase after descend. -/
theorem pairwise_keys_after : (after.keys full).Pairwise fun k l => compare k l = .gt := by
  have hturns : ((full.entries.filter fun e => after.includes e.1).map (·.1)).Pairwise
      fun k l => compare k l = .lt :=
    full.pairwise_keys.sublist (List.filter_sublist.map _)
  unfold keys chains
  rw [if_pos rfl, List.map_reverse, List.pairwise_reverse]
  exact hturns.imp fun hlt => Std.OrientedCmp.gt_of_lt hlt

end Phase

/-- The keys come in five parts: the slots before, the keys that end in no slot, the extras slots, the
slots after, and the junk slot at the root. The keys of a part ascend, but the slots after descend. -/
def PhaseOrdered (keys : List Key) : Prop :=
  ∃ before main extras after junk : List Key,
    keys = before ++ (main ++ (extras ++ (after ++ junk))) ∧
    ((∀ k ∈ before, k.control? = some .before) ∧ before.Pairwise fun k l => compare k l = .lt) ∧
    ((∀ k ∈ main, k.control? = none) ∧ main.Pairwise fun k l => compare k l = .lt) ∧
    ((∀ k ∈ extras, k.control? = some .extras) ∧ extras.Pairwise fun k l => compare k l = .lt) ∧
    ((∀ k ∈ after, k.control? = some .after) ∧ after.Pairwise fun k l => compare k l = .gt) ∧
    ∀ k ∈ junk, k = Key.root.slot .junk

/-- A schedule goes through the phases one after the other. -/
theorem map_key_schedule (full : SortedMap Key Chain) : (schedule full).map (·.1) =
    Phase.before.keys full ++ (Phase.main.keys full ++ (Phase.extras.keys full ++
      (Phase.after.keys full ++ Phase.junk.keys full))) := by
  unfold schedule
  rw [List.map_flatMap]
  show Phase.before.keys full ++ (Phase.main.keys full ++ (Phase.extras.keys full ++
    (Phase.after.keys full ++ (Phase.junk.keys full ++ [])))) = _
  rw [List.append_nil]

namespace Expansion

variable {s : Schema} {f : FlatValues} {key : Key}

/-- The keys of the schedule of an expansion are in order. -/
theorem phaseOrdered_schedule (s : Schema) (f : FlatValues) :
    PhaseOrdered ((schedule (Expansion.of s f).full).map (·.1)) := by
  refine ⟨_, _, _, _, _, map_key_schedule _,
    ⟨fun _ => Phase.control?_of_mem_keys, Phase.pairwise_keys nofun⟩,
    ⟨fun _ => Phase.control?_of_mem_keys, Phase.pairwise_keys nofun⟩,
    ⟨fun _ => Phase.control?_of_mem_keys, Phase.pairwise_keys nofun⟩,
    ⟨fun _ => Phase.control?_of_mem_keys, Phase.pairwise_keys_after⟩, fun k hk => ?_⟩
  have hslot : k.control? = some .junk := Phase.control?_of_mem_keys hk
  obtain ⟨turn, hturn, rfl⟩ := List.mem_map.1 hk
  exact eq_junk_of_get?_full (FlatRecord.mem_chains_iff.1 hturn).1 hslot

/-- The keys of the schedule of an expansion are those with a chain. -/
theorem mem_map_key_schedule_iff : key ∈ (schedule (Expansion.of s f).full).map (·.1) ↔
    (Expansion.of s f).full.contains key = true := by
  rw [SortedMap.contains, Option.isSome_iff_exists]
  constructor
  · intro hmem
    obtain ⟨turn, hturn, rfl⟩ := List.mem_map.1 hmem
    exact ⟨turn.2, get?_of_mem_schedule hturn⟩
  · rintro ⟨chain, hget⟩
    exact List.mem_map.2 ⟨(key, chain), mem_schedule_of_get?_full hget, rfl⟩

end Expansion

/-! ## Objects in objects -/

section Nested

variable {keys : List Key} {outer inner : Key}

/-- A slot of an outer object comes before that slot of an object inside it in key order. -/
theorem compare_slot_of_isPrefix (hinside : outer.segments <+: inner.segments) (hne : outer ≠ inner)
    (c : Control) : compare (outer.slot c) (inner.slot c) = .lt := by
  refine Key.lt_of_length_lt ?_
  unfold Key.slot
  rw [Key.length_push, Key.length_push]
  exact Nat.succ_lt_succ (Key.length_lt_of_isPrefix hinside hne)

/-- The slots before are a part of the keys that ascends. -/
theorem PhaseOrdered.exists_before (h : PhaseOrdered keys) :
    ∃ part : List Key, part.Sublist keys ∧ part.Pairwise (fun k l => compare k l = .lt) ∧
      ∀ k ∈ keys, k.control? = some .before → k ∈ part := by
  obtain ⟨before, main, extras, after, junk, rfl, ⟨-, hascend⟩, ⟨hmain, -⟩, ⟨hextras, -⟩, ⟨hafter, -⟩,
    hjunk⟩ := h
  refine ⟨before, List.sublist_append_left _ _, hascend, fun k hk hslot => ?_⟩
  -- Every other part has keys that end otherwise.
  have hother : ∀ {l : List Key} {c : Option Control}, (∀ k ∈ l, k.control? = c) →
      c ≠ some .before → k ∉ l := fun hl hc hmem => hc ((hl k hmem).symm.trans hslot)
  have hroot : ∀ k ∈ junk, k.control? = some .junk := fun k hk => congrArg Key.control? (hjunk k hk)
  simpa [hother hmain, hother hextras, hother hafter, hother hroot] using hk

/-- The slots after are a part of the keys that descends. -/
theorem PhaseOrdered.exists_after (h : PhaseOrdered keys) :
    ∃ part : List Key, part.Sublist keys ∧ part.Pairwise (fun k l => compare k l = .gt) ∧
      ∀ k ∈ keys, k.control? = some .after → k ∈ part := by
  obtain ⟨before, main, extras, after, junk, rfl, ⟨hbefore, -⟩, ⟨hmain, -⟩, ⟨hextras, -⟩,
    ⟨-, hdescend⟩, hjunk⟩ := h
  -- The part stands behind three others and before the last.
  have hsublist : after.Sublist (before ++ (main ++ (extras ++ (after ++ junk)))) :=
    (((List.sublist_append_left after junk).trans (List.sublist_append_right extras _)).trans
      (List.sublist_append_right main _)).trans (List.sublist_append_right before _)
  refine ⟨after, hsublist, hdescend, fun k hk hslot => ?_⟩
  have hother : ∀ {l : List Key} {c : Option Control}, (∀ k ∈ l, k.control? = c) →
      c ≠ some .after → k ∉ l := fun hl hc hmem => hc ((hl k hmem).symm.trans hslot)
  have hroot : ∀ k ∈ junk, k.control? = some .junk := fun k hk => congrArg Key.control? (hjunk k hk)
  simpa [hother hbefore, hother hmain, hother hextras, hother hroot] using hk

/-- In a list of keys in phases the slot before of an outer object comes first, and its slot after comes
last. -/
theorem PhaseOrdered.sublist_slots (h : PhaseOrdered keys) (hinside : outer.segments <+: inner.segments)
    (hne : outer ≠ inner) :
    (outer.slot .before ∈ keys → inner.slot .before ∈ keys →
      [outer.slot .before, inner.slot .before].Sublist keys) ∧
    (outer.slot .after ∈ keys → inner.slot .after ∈ keys →
      [inner.slot .after, outer.slot .after].Sublist keys) := by
  have hlt := compare_slot_of_isPrefix hinside hne
  have hslots : ∀ c, outer.slot c ≠ inner.slot c := fun c heq => hne (Key.slot_inj.1 heq).1
  constructor
  · -- Of two slots before, that of the outer object is the lesser.
    intro houter hinner
    obtain ⟨part, hsublist, hascend, hpart⟩ := h.exists_before
    have hgt : compare (inner.slot .before) (outer.slot .before) = .gt :=
      Std.OrientedCmp.gt_of_lt (hlt .before)
    have hpair : [outer.slot .before, inner.slot .before].Sublist part :=
      sublist_pair_of_pairwise hascend (hpart _ houter Key.control?_slot)
        (hpart _ hinner Key.control?_slot) (hslots _) (by rw [hgt]; exact nofun)
    exact hpair.trans hsublist
  · -- The slots after descend, so there the lesser one comes last.
    intro houter hinner
    obtain ⟨part, hsublist, hdescend, hpart⟩ := h.exists_after
    have hpair : [inner.slot .after, outer.slot .after].Sublist part :=
      sublist_pair_of_pairwise hdescend (hpart _ hinner Key.control?_slot)
        (hpart _ houter Key.control?_slot) (hslots _).symm (by rw [hlt]; exact nofun)
    exact hpair.trans hsublist

end Nested

/-! ## Validation -/

/-- A run starts the chain of every key that has one exactly once, in phases. For an object inside another
the chain before of the outer one is started first, and so is the chain after of the inner one. In its
turn a key has the validators of its chain applied in order, up to and including the first that stops;
and all applications together lead from the completed record to the result. -/
theorem validateFlat_in_phases {f : FlatValues} {s : Schema} {c : Context} {w : Work}
    (hw : validateFlat f s c = .ok w) :
    ∃ a, (Expansion.of s f).complete f = .ok a ∧
      Leads (startWork (Expansion.of s f) a c) ((Expansion.of s f).applications a c) w ∧
      ∃ keys, keys = ((Expansion.of s f).turns a c).map Turn.key ∧
        keys.Nodup ∧ (∀ key, key ∈ keys ↔ (Expansion.of s f).full.contains key = true) ∧
        PhaseOrdered keys ∧
        (∀ outer inner : Key, outer.segments <+: inner.segments → outer ≠ inner →
          (outer.slot .before ∈ keys → inner.slot .before ∈ keys →
            [outer.slot .before, inner.slot .before].Sublist keys) ∧
          (outer.slot .after ∈ keys → inner.slot .after ∈ keys →
            [inner.slot .after, outer.slot .after].Sublist keys)) ∧
        ∀ turn ∈ (Expansion.of s f).turns a c, ∃ chain,
          (Expansion.of s f).full.get? turn.key = some chain ∧ turn.Follows chain := by
  obtain ⟨a, ha, rfl⟩ := validateFlat_eq_ok_iff.1 hw
  have hkeys : ((Expansion.of s f).turns a c).map Turn.key =
      (schedule (Expansion.of s f).full).map (·.1) := map_key_turnsTaken _ _
  have hordered := Expansion.phaseOrdered_schedule s f
  refine ⟨a, ha, leads_turnsTaken _ _, _, hkeys.symm, nodup_keys_schedule _,
    fun key => Expansion.mem_map_key_schedule_iff, hordered, ?_, ?_⟩
  · exact fun outer inner hinside hne => hordered.sublist_slots hinside hne
  · exact fun turn hturn => Expansion.exists_follows_of_mem_turns hturn

/-- Two levels of objects with chains in all slots, and a field whose chain stops ahead of its last
validator. -/
def staged : Schema where
  fields := [
    ("a", .sub {
      fields := [("b", .leaf [])], before := some [], after := some [], extras := some [] }),
    ("c", .leaf [.stateful fun d _ => .ok d, .converter fun _ => .error .stop,
      .converter fun _ => .error (.invalid .missing)])]
  before := some []
  after := some []
  extras := some []
  junk := some []

/-- A flat record for it with two objects in the list. -/
def stagedFlat : FlatValues := .ofList [
  (⟨[.field "a", .index 0, .field "b"]⟩, .int 1), (⟨[.field "a", .index 1, .field "b"]⟩, .int 2)]

/-- The thirteen turns of `staged` come phase by phase, outer objects first but for the phase after. -/
theorem validateFlat_in_phases_staged :
    ∃ w, validateFlat stagedFlat staged {} = .ok w ∧
      ∃ a, (Expansion.of staged stagedFlat).complete stagedFlat = .ok a ∧
        (((Expansion.of staged stagedFlat).turns a {}).map fun turn =>
            (turn.key.text, turn.applications.length)) =
          [("__before", 0), ("a[0].__before", 0), ("a[1].__before", 0), ("c", 2), ("a[0].b", 0),
            ("a[1].b", 0), ("__extras", 0), ("a[0].__extras", 0), ("a[1].__extras", 0),
            ("a[1].__after", 0), ("a[0].__after", 0), ("__after", 0), ("__junk", 0)] ∧
        PhaseOrdered (((Expansion.of staged stagedFlat).turns a {}).map Turn.key) ∧
        Leads (startWork (Expansion.of staged stagedFlat) a {})
          ((Expansion.of staged stagedFlat).applications a {}) w := by
  obtain ⟨w, hw⟩ : ∃ w, validateFlat stagedFlat staged {} = .ok w := ⟨_, rfl⟩
  obtain ⟨a, ha, hleads, keys, rfl, -, -, hordered, -⟩ := validateFlat_in_phases hw
  refine ⟨w, hw, a, ha, ?_, hordered, hleads⟩
  cases ha
  rfl

end FlatRecord
