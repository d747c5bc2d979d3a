import FlatRecord.Proofs.Schema.FullSchema
import FlatRecord.Proofs.Validation.Run

/-!
# Turns in a schedule

Every key with a chain has exactly one turn in the schedule of an expanded schema
(`mem_schedule_iff`, `nodup_keys_schedule`). The phases have no key in common, since a key ends in one
slot or in none, and the one junk slot of an expanded schema is the one at the root
(`Expansion.eq_junk_of_get?_full`), so no chain is left out of the junk phase.
-/

namespace FlatRecord

variable {full : SortedMap Key Chain} {key : Key} {chain : Chain}

namespace Phase

/-- A phase includes the keys that are its own; for junk there is one at the root only. -/
theorem includes_iff {p : Phase} :
    p.includes key = true ↔ of key = p ∧ (p = junk → key.length = 1) := by
  unfold includes
  rw [Bool.and_eq_true, Bool.or_eq_true, decide_eq_true_eq, decide_eq_true_eq, decide_eq_true_eq,
    ← Decidable.imp_iff_not_or]

/-- The keys of the turns of a phase are its own. -/
theorem of_eq_of_mem_chains {p : Phase} {turn : Key × Chain} (h : turn ∈ p.chains full) :
    of turn.1 = p :=
  (includes_iff.1 (mem_chains_iff.1 h).2).1

/-- The slot in which the keys of a phase end. -/
def slot? : Phase → Option Control
  | before => some .before
  | main => none
  | extras => some .extras
  | after => some .after
  | junk => some .junk

/-- A key has its turn in the phase of the slot in which it ends. -/
theorem of_eq_iff {p : Phase} : of key = p ↔ key.control? = p.slot? := by
  unfold of
  cases key.control? with
  | none => cases p <;> simp [slot?]
  | some slot => cases slot <;> cases p <;> simp [slot?]

/-- Every phase is run. -/
theorem mem_all (p : Phase) : p ∈ all := by
  cases p <;> decide

/-- The keys of a phase are different. -/
theorem nodup_keys_chains (p : Phase) : ((p.chains full).map (·.1)).Nodup := by
  have hturns : ((full.entries.filter fun e => p.includes e.1).map (·.1)).Nodup :=
    full.nodup_keys.sublist (List.filter_sublist.map _)
  unfold chains
  dsimp only
  split
  · rw [List.map_reverse, List.Nodup, List.pairwise_reverse]
    exact hturns.imp fun hne => hne.symm
  · exact hturns

end Phase

/-- A key has one turn in a schedule at most. -/
theorem nodup_keys_schedule (full : SortedMap Key Chain) : ((schedule full).map (·.1)).Nodup := by
  have hphases : Phase.all.Pairwise (· ≠ ·) := by decide
  unfold schedule
  rw [List.map_flatMap, List.Nodup, List.pairwise_flatMap]
  refine ⟨fun p _ => p.nodup_keys_chains, hphases.imp fun {p q} hne => ?_⟩
  -- A key belongs to one phase only.
  intro k hp k' hq hkey
  obtain ⟨turn, hturn, rfl⟩ := List.mem_map.1 hp
  obtain ⟨turn', hturn', rfl⟩ := List.mem_map.1 hq
  have hofp : Phase.of turn.1 = p := Phase.of_eq_of_mem_chains hturn
  have hofq : Phase.of turn'.1 = q := Phase.of_eq_of_mem_chains hturn'
  exact hne (by rw [← hofp, ← hofq, hkey])

/-- The turns of a schedule are those of the keys with a chain, junk slots further in left out. -/
theorem mem_schedule_iff {turn : Key × Chain} : turn ∈ schedule full ↔
    full.get? turn.1 = some turn.2 ∧ (turn.1.control? = some .junk → turn.1.length = 1) := by
  unfold schedule
  simp only [List.mem_flatMap, mem_chains_iff, Phase.includes_iff]
  constructor
  · rintro ⟨p, -, hget, hof, hjunk⟩
    exact ⟨hget, fun hcontrol => hjunk (hof.symm.trans (Phase.of_eq_iff.2 hcontrol))⟩
  · rintro ⟨hget, hjunk⟩
    have hlength : Phase.of turn.1 = .junk → turn.1.length = 1 :=
      fun hof => hjunk (Phase.of_eq_iff.1 hof)
    exact ⟨Phase.of turn.1, Phase.mem_all _, hget, rfl, hlength⟩

namespace Expansion

variable {s : Schema} {f : FlatValues}

/-- The one junk slot with a chain is that at the root. -/
theorem eq_junk_of_get?_full (hget : (Expansion.of s f).full.get? key = some chain)
    (hjunk : key.control? = some .junk) : key = Key.root.slot .junk := by
  rcases exists_of_get?_full hget with ⟨p, node, -, hmem⟩ | ⟨hkey, -⟩
  · -- No field is a slot, and the slots of a node are others.
    rcases Schema.mem_ownEntries_iff.1 hmem with ⟨name, -, rfl⟩ | ⟨slot, hslot, -, rfl⟩
    · rw [Key.control?_field] at hjunk
      cases hjunk
    · rw [Key.control?_slot, Option.some.injEq] at hjunk
      rw [hjunk] at hslot
      exact absurd hslot (by decide)
  · exact hkey

/-- Every key with a chain in an expansion has its turn. -/
theorem mem_schedule_of_get?_full (hget : (Expansion.of s f).full.get? key = some chain) :
    (key, chain) ∈ schedule (Expansion.of s f).full := by
  refine mem_schedule_iff.2 ⟨hget, fun hjunk => ?_⟩
  rw [eq_junk_of_get?_full hget hjunk]
  rfl

end Expansion

end FlatRecord
