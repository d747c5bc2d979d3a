import FlatRecord.Proofs.Schema.Routing
import FlatRecord.Proofs.Validation.Schedule

/-!
# Runs that clear the slots

In a schema whose nodes have no chains but those of their leaf fields and of their extras slots
(`Schema.OnlyExtras`) every key of a completed record has a chain
(`Expansion.contains_full_of_contains_complete`). If each of these chains clears its key, that is, leaves
no value there unless the key is one to be kept, and adds values under keys to be kept only, then only
such keys have a value in the end (`kept_of_validateFlat`).
-/

namespace FlatRecord

/-! ## Chains that clear their keys -/

/-- Run on the key the chain leaves no value there, and adds values under keys that are kept only. A key
that is kept may have a value afterwards in any case. -/
def Chain.Clears (kept : Key → Prop) (key : Key) (chain : Chain) : Prop :=
  ∀ w k, (chain.run key w).data.contains k = true →
    kept k ∨ (w.data.contains k = true ∧ k ≠ key)

section Clears

variable {kept : Key → Prop} {turns : List (Key × Chain)} {w : Work} {k : Key}

/-- After a run of such chains a key has a value only if it is kept, or had one before and no turn. -/
theorem runChains_clears (h : ∀ turn ∈ turns, turn.2.Clears kept turn.1)
    (hk : (runChains turns w).data.contains k = true) :
    kept k ∨ (w.data.contains k = true ∧ k ∉ turns.map (·.1)) := by
  induction turns generalizing w with
  | nil => exact .inr ⟨hk, List.not_mem_nil⟩
  | cons turn rest ih =>
    obtain ⟨hturn, hrest⟩ := List.forall_mem_cons.1 h
    rcases ih hrest hk with hkept | ⟨hcontains, hlater⟩
    · exact .inl hkept
    · -- The key has a value after the first turn and no later turn, so it was there before that turn too.
      refine (hturn w k hcontains).imp id fun hbefore => ⟨hbefore.1, ?_⟩
      rw [List.map_cons, List.mem_cons, not_or]
      exact ⟨hbefore.2, hlater⟩

/-- When every key of the completed record has a chain and the chains clear their keys, only keys that are
kept have a value in the end. -/
theorem kept_of_validateFlat {f : FlatValues} {s : Schema} {c : Context} {a : FlatData}
    (ha : (Expansion.of s f).complete f = .ok a)
    (hstart : ∀ k, a.contains k = true → (Expansion.of s f).full.contains k = true)
    (hclears : ∀ k chain, (Expansion.of s f).full.get? k = some chain → chain.Clears kept k)
    (hw : validateFlat f s c = .ok w) (hk : w.data.contains k = true) : kept k := by
  obtain ⟨a', ha', rfl⟩ := validateFlat_eq_ok_iff.1 hw
  cases ha.symm.trans ha'
  have hturns : ∀ turn ∈ schedule (Expansion.of s f).full, turn.2.Clears kept turn.1 :=
    fun turn hturn => hclears turn.1 turn.2 (get?_of_mem_schedule hturn)
  rcases runChains_clears hturns hk with hkept | ⟨hbefore, hturn⟩
  · exact hkept
  · -- A key that had a value at the start has a chain and so a turn.
    obtain ⟨chain, hget⟩ := SortedMap.contains_iff.1 (hstart k hbefore)
    have hmem := Expansion.mem_schedule_of_get?_full hget
    exact absurd (List.mem_map.2 ⟨(k, chain), hmem, rfl⟩) hturn

end Clears

/-! ## Schemas with extras chains only -/

/-- The node has a chain in its extras slot and none in the slots before and after, and the chains of its
leaf fields have a property. -/
structure Schema.OnlyExtras (extras : Chain) (leaf : Chain → Prop) (s : Schema) : Prop where
  /-- Nothing runs before the main phase. -/
  before : s.before = none
  /-- Nothing runs after it. -/
  after : s.after = none
  /-- The chain of what the node does not name. -/
  extras : s.extras = some extras
  /-- The chains of the leaf fields. -/
  leaves : ∀ name chain, (name, Node.leaf chain) ∈ s.fields → leaf chain

namespace Expansion

variable {s : Schema} {r : Record} {f : FlatValues} {a : FlatData} {k p : Key} {chain extras : Chain}
  {leaf : Chain → Prop}

/-- The key is that of a leaf field of an accepted object. -/
def IsLeaf (s : Schema) (f : FlatValues) (k : Key) : Prop :=
  ∃ (path : ItemPath) (node : Schema) (name : String) (chain : Chain), s.Accepts f.keys path ∧
    s.nested? path.names = some node ∧ (name, Node.leaf chain) ∈ node.fields ∧
    k = path.key.field name

section OnlyExtras

variable (hs : s.Distinct) (hr : r.flatten = .ok f)
  (hnodes : s.EveryNode (Schema.OnlyExtras extras leaf))

include hs hr hnodes

/-- A key with a chain is that of a leaf field, an extras slot, or the junk slot at the root. -/
theorem get?_full_cases (hget : (Expansion.of s f).full.get? k = some chain) :
    (IsLeaf s f k ∧ leaf chain) ∨ (∃ path : ItemPath, k = path.key.slot .extras ∧ chain = extras) ∨
      (k = Key.root.slot .junk ∧ s.junk = some chain) := by
  rcases (get?_full_iff hs hr).1 hget with ⟨path, node, hpath, hnode, hmem⟩ | hjunk
  · obtain ⟨hbefore, hafter, hextras, hleaves⟩ := hnodes path.names node hnode
    rcases Schema.mem_ownEntries_iff.1 hmem with ⟨name, hfield, rfl⟩ | ⟨slot, hnodeSlot, hslot, rfl⟩
    · exact .inl ⟨⟨path, node, name, chain, hpath, hnode, hfield, rfl⟩, hleaves name chain hfield⟩
    · -- Of its slots a node has a chain in that for extras only.
      cases slot with
      | before => exact absurd (hbefore.symm.trans hslot) nofun
      | after => exact absurd (hafter.symm.trans hslot) nofun
      | extras => exact .inr (.inl ⟨path, rfl, Option.some.inj (hslot.symm.trans hextras)⟩)
      | junk => exact absurd hnodeSlot (by decide)
  · exact .inr (.inr hjunk)

/-- The extras slot of every accepted object has the chain of extras. -/
theorem get?_full_extras (hp : (Expansion.of s f).accepted.contains p = true) :
    (Expansion.of s f).full.get? (p.slot .extras) = some extras := by
  obtain ⟨path, rfl, hpath⟩ := (contains_acceptedNodes_iff hs hr p).1 hp
  obtain ⟨node, hnode, -⟩ := hpath.exists_nested
  refine (get?_full_iff hs hr).2 (.inl ⟨path, node, hpath, hnode, ?_⟩)
  refine Schema.mem_ownEntries_iff.2 (.inr ⟨.extras, by decide, ?_, rfl⟩)
  exact (hnodes path.names node hnode).extras

/-- Every key of a completed record has a chain, when the junk slot has one or there are no orphans. -/
theorem contains_full_of_contains_complete (ha : (Expansion.of s f).complete f = .ok a)
    (hjunk : (∃ k ∈ f.keys, (Expansion.of s f).IsOrphan k) → ∃ chain, s.junk = some chain)
    (hk : a.contains k = true) : (Expansion.of s f).full.contains k = true := by
  obtain ⟨d, hd⟩ := SortedMap.contains_iff.1 hk
  rcases key_of_get?_complete (fieldKeys_of_flatten hr) ha hd with ⟨hfull, -⟩ | ⟨p, rfl, k, -, hextra⟩ |
    ⟨rfl, horphan⟩
  · exact hfull
  · exact SortedMap.contains_iff.2 ⟨extras, get?_full_extras hs hr hnodes hextra.2.1⟩
  · obtain ⟨chain, hchain⟩ := hjunk horphan
    exact SortedMap.contains_iff.2 ⟨chain, (get?_full_iff hs hr).2 (.inr ⟨rfl, hchain⟩)⟩

end OnlyExtras

end Expansion

end FlatRecord
