import Mathlib.Data.List.Dedup
import FlatRecord.Proofs.Record.KeyTexts
import FlatRecord.Proofs.Schema.Routing
import FlatRecord.Rule.Presence

/-!
# Orphans in the junk slot

The junk slot of a completed record has one value for each text of an orphan
(`Expansion.keys_perm_texts`). Orphans whose keys have one text share a place there, and all values but one
of theirs are gone: the slot keeps every orphan just when the texts are different
(`Expansion.junk_keeps_orphans_iff`). They are when no name has an opening bracket, and a name that looks
like the way into a list can be taken for it (`Expansion.junk_loses_orphan`).
-/

namespace FlatRecord

/-- The contents of the junk slot of a completed record. -/
def FlatData.junk (data : FlatData) : List (String × Json) :=
  Presence.bucketFields ((data.get? (Key.root.slot .junk)).getD .missing)

namespace Expansion

variable {e : Expansion} {f : FlatValues} {a : FlatData} {bucket : Record} {k : Key}

/-- The keys of the entries for which the schema has no chain and that lie in no accepted object. -/
def orphans (e : Expansion) (f : FlatValues) : List Key :=
  f.keys.filter fun k => !e.full.contains k && !e.accepted.contains k.parent

/-- The orphans among the keys of a record. -/
theorem mem_orphans_iff : k ∈ e.orphans f ↔ k ∈ f.keys ∧ e.IsOrphan k := by
  unfold orphans IsOrphan
  rw [List.mem_filter, Bool.and_eq_true, Bool.not_eq_true', Bool.not_eq_true']

/-- The texts of the orphans. -/
def orphanTexts (e : Expansion) (f : FlatValues) : List String := (e.orphans f).map Key.text

/-- The texts of the orphans of a record. -/
theorem mem_orphanTexts_iff {text : String} :
    text ∈ e.orphanTexts f ↔ ∃ k v, (k, v) ∈ f.entries ∧ e.IsOrphan k ∧ k.text = text := by
  unfold orphanTexts
  rw [List.mem_map]
  constructor
  · rintro ⟨k, hk, htext⟩
    obtain ⟨hkeys, horphan⟩ := mem_orphans_iff.1 hk
    obtain ⟨v, hv⟩ := SortedMap.mem_keys_iff.1 hkeys
    exact ⟨k, v, (SortedMap.get?_eq_some_iff f).1 hv, horphan, htext⟩
  · rintro ⟨k, v, hv, horphan, htext⟩
    exact ⟨k, mem_orphans_iff.2 ⟨List.mem_map.2 ⟨_, hv, rfl⟩, horphan⟩, htext⟩

/-- The object of the orphans has one name for each of their texts. -/
theorem keys_perm_texts (h : e.OrphansOf f.entries bucket) :
    bucket.keys.Perm (e.orphanTexts f).dedup := by
  refine (List.perm_ext_iff_of_nodup bucket.nodup_keys (List.nodup_dedup _)).2 fun text => ?_
  rw [List.mem_dedup, mem_orphanTexts_iff, SortedMap.mem_keys_iff]
  constructor
  · rintro ⟨v, hv⟩
    obtain ⟨k, hk, ⟨horphan, htext⟩, -⟩ := (h text v).1 hv
    exact ⟨k, v, hk, horphan, htext⟩
  · rintro ⟨k, v, hk, horphan, htext⟩
    -- Of the orphans with the text the one with the greatest key counts.
    obtain ⟨w, hw⟩ := @exists_isGreatest f.entries (fun k' => e.IsOrphan k' ∧ k'.text = text)
      f.sorted ⟨k, v, hk, horphan, htext⟩
    exact ⟨w, (h text w).2 hw⟩

/-- An orphan with a text of its own has its value in the object of the orphans. -/
theorem OrphansOf.get?_text (h : e.OrphansOf f.entries bucket) (hnodup : (e.orphanTexts f).Nodup)
    (hk : k ∈ e.orphans f) : bucket.get? k.text = f.get? k := by
  obtain ⟨hkeys, horphan⟩ := mem_orphans_iff.1 hk
  obtain ⟨v, hv⟩ := SortedMap.mem_keys_iff.1 hkeys
  rw [hv, h k.text v]
  refine ⟨k, (SortedMap.get?_eq_some_iff f).1 hv, ⟨horphan, rfl⟩, fun k' v' hk' hC => ?_⟩
  have hmem : k' ∈ e.orphans f := mem_orphans_iff.2 ⟨List.mem_map.2 ⟨_, hk', rfl⟩, hC.1⟩
  have hsame : k' = k := List.inj_on_of_nodup_map hnodup hmem hk hC.2
  have hself : compare k k = .eq := Std.ReflCmp.compare_self
  rw [hsame, hself]
  exact nofun

/-- The junk slot of a completed record has the object of the orphans, and nothing if there are none. -/
theorem exists_junk_eq (hfields : FieldKeys f) (ha : e.complete f = .ok a) :
    ∃ bucket : Record, a.junk = bucket.entries ∧ e.OrphansOf f.entries bucket := by
  unfold FlatData.junk
  by_cases horphans : ∃ k ∈ f.keys, e.IsOrphan k
  · obtain ⟨bucket, hbucket, hof⟩ := exists_get?_complete_junk hfields ha horphans
    rw [hbucket]
    exact ⟨bucket, rfl, hof⟩
  · rw [get?_complete_junk_eq_none hfields ha horphans]
    refine ⟨∅, rfl, fun text v => ⟨nofun, ?_⟩⟩
    rintro ⟨k, hk, ⟨horphan, -⟩, -⟩
    exact absurd ⟨k, List.mem_map.2 ⟨_, hk, rfl⟩, horphan⟩ horphans

/-- Orphans whose names have no opening bracket have different texts. -/
theorem nodup_orphanTexts {r : Record} (hr : r.flatten = .ok f)
    (hnames : ∀ k ∈ e.orphans f, k.Bracketless) : (e.orphanTexts f).Nodup := by
  have hkeys : (e.orphans f).Nodup := f.nodup_keys.filter _
  refine List.Nodup.map_on (fun k hk l hl htext => ?_) hkeys
  obtain ⟨p, name, rfl⟩ := Record.exists_eq_field_of_mem_keys hr (mem_orphans_iff.1 hk).1
  obtain ⟨q, name', rfl⟩ := Record.exists_eq_field_of_mem_keys hr (mem_orphans_iff.1 hl).1
  exact Key.text_field_injective (hnames _ hk) (hnames _ hl) htext

/-- The junk slot of a completed record has as many values as its orphans have texts. So it has one for
each orphan just when the texts are different, and then every orphan is found under its text; and the texts
are different if no name has an opening bracket. -/
theorem junk_keeps_orphans_iff {s : Schema} {r : Record} (hr : r.flatten = .ok f)
    (ha : (Expansion.of s f).complete f = .ok a) :
    a.junk.length = ((Expansion.of s f).orphanTexts f).dedup.length ∧
    (a.junk.length = ((Expansion.of s f).orphans f).length ↔
      ((Expansion.of s f).orphanTexts f).Nodup) ∧
    (((Expansion.of s f).orphanTexts f).Nodup →
      ∀ k ∈ (Expansion.of s f).orphans f, Ascending.get? k.text a.junk = f.get? k) ∧
    ((∀ k ∈ (Expansion.of s f).orphans f, k.Bracketless) →
      ((Expansion.of s f).orphanTexts f).Nodup) := by
  obtain ⟨bucket, hjunk, hof⟩ := exists_junk_eq (fieldKeys_of_flatten hr) ha
  have hlength : a.junk.length = ((Expansion.of s f).orphanTexts f).dedup.length := by
    rw [hjunk, ← (keys_perm_texts hof).length_eq]
    exact (List.length_map _).symm
  refine ⟨hlength, ?_, fun hnodup k hk => ?_, nodup_orphanTexts hr⟩
  · -- Removing repeated texts leaves their number exactly when none is repeated.
    have htexts : ((Expansion.of s f).orphans f).length =
        ((Expansion.of s f).orphanTexts f).length := (List.length_map _).symm
    rw [hlength, htexts, (List.dedup_sublist _).length_eq, List.dedup_eq_self]
  · rw [hjunk]
    exact hof.get?_text hnodup hk

/-- A record whose orphans have different texts, though the names in one of them look like those of two
steps. -/
def pointed : Record where
  entries := [("z", .arr [.obj [("q", .arr [.obj [("w", .int 5)]]), ("q.w", .int 6)]])]
  sorted := by decide

/-- The two orphans of `pointed` have different texts, though one has a point in its name, and both are kept.
-/
theorem junk_keeps_orphans_iff_pointed : ∃ f a, pointed.flatten = .ok f ∧
    (Expansion.of {} f).complete f = .ok a ∧
    a.junk = [("z[0].q.w", .int 6), ("z[0].q[0].w", .int 5)] ∧
    (a.junk.length = ((Expansion.of {} f).orphanTexts f).dedup.length ∧
    (a.junk.length = ((Expansion.of {} f).orphans f).length ↔
      ((Expansion.of {} f).orphanTexts f).Nodup) ∧
    (((Expansion.of {} f).orphanTexts f).Nodup →
      ∀ k ∈ (Expansion.of {} f).orphans f, Ascending.get? k.text a.junk = f.get? k) ∧
    ((∀ k ∈ (Expansion.of {} f).orphans f, k.Bracketless) →
      ((Expansion.of {} f).orphanTexts f).Nodup)) := by
  obtain ⟨f, hf⟩ : ∃ f, pointed.flatten = .ok f := ⟨_, rfl⟩
  obtain ⟨a, ha⟩ : ∃ a, (Expansion.of {} f).complete f = .ok a := by
    cases hf
    exact ⟨_, rfl⟩
  refine ⟨f, a, hf, ha, ?_, junk_keeps_orphans_iff hf ha⟩
  cases hf
  cases ha
  rfl

/-- The record with another name in the place of the one with a point: it is the text of the way to the
field in the list beside it. -/
def tangled : Record where
  entries := [("z", .arr [.obj [("q", .arr [.obj [("w", .int 5)]]), ("q[0].w", .int 6)]])]
  sorted := by decide

/-- Of two orphans whose keys have one text the junk slot keeps one value. -/
theorem junk_loses_orphan : ∃ f a, tangled.flatten = .ok f ∧
    (Expansion.of {} f).complete f = .ok a ∧ a.junk = [("z[0].q[0].w", .int 5)] ∧
    ((Expansion.of {} f).orphans f).map (fun k => (k.segments, f.get? k)) =
      [([.field "z", .index 0, .field "q[0].w"], some (.int 6)),
        ([.field "z", .index 0, .field "q", .index 0, .field "w"], some (.int 5))] ∧
    a.junk.length ≠ ((Expansion.of {} f).orphans f).length :=
  ⟨_, _, rfl, rfl, rfl, rfl, by decide⟩

end Expansion

end FlatRecord
