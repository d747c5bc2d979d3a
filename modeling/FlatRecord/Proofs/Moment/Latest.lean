import FlatRecord.Moment
import FlatRecord.Proofs.Comparison

/-!
# The latest of some moments

Moments are in a total order, that of their parts, the most significant first (`Moment.le_total`,
`le_trans`, `le_antisymm`). So among some moments one is the latest, and it depends on which they are but
not on how they are listed: `Moment.IsLatest` says which one it is, and `IsLatest.unique` that there is no
other. The latest of many is found by comparing the latest of the first ones with those that follow
(`IsLatest.append`).
-/

namespace FlatRecord.Moment

variable {a b m : Moment} {times times' : List Moment} {latest latest' : Option Moment}

/-! ## Order -/

/-- A moment is determined by its parts. -/
theorem eq_of_parts_eq (h : a.parts = b.parts) : a = b := by
  cases a
  cases b
  simpa [parts, Int.natCast_inj] using h

/-- A moment is not after itself. -/
theorem le_refl (a : Moment) : a.le a = true := Std.ReflOrd.isLE_rfl

/-- The order of moments is transitive. -/
theorem le_trans (hab : a.le b = true) (hbm : b.le m = true) : a.le m = true :=
  Std.TransOrd.isLE_trans hab hbm

/-- Two moments of which neither is after the other are the same. -/
theorem le_antisymm (hab : a.le b = true) (hba : b.le a = true) : a = b :=
  eq_of_parts_eq (Std.LawfulEqOrd.eq_of_compare (Std.OrientedCmp.isLE_antisymm hab hba))

/-- Of two moments one is not after the other. -/
theorem le_total (a b : Moment) : a.le b = true ∨ b.le a = true := isLE_total a.parts b.parts

/-! ## The latest -/

/-- The latest of some moments: it is one of them and none of them is after it. There is none only if
there are no moments. -/
def IsLatest (times : List Moment) : Option Moment → Prop
  | none => times = []
  | some latest => latest ∈ times ∧ ∀ time ∈ times, time.le latest = true

/-- The later of two moments is the latest of the two. -/
theorem isLatest_later (a b : Moment) : IsLatest [a, b] (some (a.later b)) := by
  show a.later b ∈ [a, b] ∧ ∀ time ∈ [a, b], time.le (a.later b) = true
  unfold later
  rw [List.forall_mem_cons, List.forall_mem_singleton]
  split
  · rename_i hle
    exact ⟨List.mem_cons_of_mem _ List.mem_cons_self, hle, le_refl b⟩
  · rename_i hle
    exact ⟨List.mem_cons_self, le_refl a, (le_total a b).resolve_left hle⟩

/-- One moment, or none, is the latest of itself. -/
theorem isLatest_toList (latest : Option Moment) : IsLatest latest.toList latest := by
  cases latest with
  | none => rfl
  | some m =>
    refine ⟨List.mem_singleton_self m, fun time htime => ?_⟩
    rw [List.mem_singleton.1 htime]
    exact le_refl m

/-- In the place of some moments their latest may be compared with those that follow. -/
theorem IsLatest.append (h : IsLatest times latest) (h' : IsLatest (latest.toList ++ times') latest') :
    IsLatest (times ++ times') latest' := by
  cases latest with
  -- Without a latest one there are no moments.
  | none =>
    have hnil : times = [] := h
    rw [hnil]
    exact h'
  | some m =>
    cases latest' with
    | none => cases h'
    | some m' =>
      obtain ⟨hm, hle⟩ := h
      obtain ⟨hm', hle'⟩ := h'
      have hmm' : m.le m' = true := hle' m (List.mem_append_left _ (List.mem_singleton_self m))
      constructor
      · -- The new latest one is the former one or one of those that follow.
        rcases List.mem_append.1 hm' with hfirst | hrest
        · rw [List.mem_singleton.1 hfirst]
          exact List.mem_append_left _ hm
        · exact List.mem_append_right _ hrest
      · -- None of the former moments is later, since the former latest one is not.
        intro time htime
        rcases List.mem_append.1 htime with hfirst | hrest
        · exact le_trans (hle time hfirst) hmm'
        · exact hle' time (List.mem_append_right _ hrest)

/-- The same moments have the same latest one, however they are listed. -/
theorem IsLatest.unique (h : IsLatest times latest) (h' : IsLatest times' latest')
    (hsame : ∀ time, time ∈ times ↔ time ∈ times') : latest = latest' := by
  cases latest with
  | none =>
    have hnil : times = [] := h
    cases latest' with
    | none => rfl
    | some m' =>
      have hmem : m' ∈ times := (hsame m').2 h'.1
      rw [hnil] at hmem
      cases hmem
  | some m =>
    have hmem : m ∈ times' := (hsame m).1 h.1
    cases latest' with
    | none =>
      have hnil : times' = [] := h'
      rw [hnil] at hmem
      cases hmem
    | some m' => exact congrArg some (le_antisymm (h'.2 m hmem) (h.2 m' ((hsame m').2 h'.1)))

end FlatRecord.Moment
