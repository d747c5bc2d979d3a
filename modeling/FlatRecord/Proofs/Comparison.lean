/-!
# Comparisons

`TotalOrder` lists what it says of a comparison that it puts values in a total order: that it does not
matter which operand is the first, that only equal operands compare as equal, and that what is not after a
value is not after anything behind that value either. Every lawful comparison does so
(`totalOrder_of_lawful`).

Sorting by a comparison is stable: it leaves elements that are not after one another in the order given
(`filter_mergeSort`).
-/

namespace FlatRecord

universe u

variable {α : Type u} {cmp : α → α → Ordering}

/-- Of two values one is not after the other. -/
theorem isLE_total [Std.OrientedCmp cmp] (a b : α) :
    (cmp a b).isLE = true ∨ (cmp b a).isLE = true := by
  have hswap : cmp b a = (cmp a b).swap := Std.OrientedCmp.eq_swap
  rw [hswap]
  cases cmp a b <;> decide

/-- The comparison puts the values of a type in a total order. -/
structure TotalOrder (cmp : α → α → Ordering) : Prop where
  /-- With its operands exchanged it comes out the other way round. -/
  swap : ∀ a b, cmp b a = (cmp a b).swap
  /-- Only equal operands compare as equal. -/
  eq_iff : ∀ a b, cmp a b = .eq ↔ a = b
  /-- Two values of which neither is after the other are equal. -/
  antisymm : ∀ a b, (cmp a b).isLE = true → (cmp b a).isLE = true → a = b
  /-- What is not after a value is not after those that this one is not after. -/
  trans : ∀ a b c, (cmp a b).isLE = true → (cmp b c).isLE = true → (cmp a c).isLE = true
  /-- What is before a value is before those that this one is before. -/
  lt_trans : ∀ a b c, cmp a b = .lt → cmp b c = .lt → cmp a c = .lt
  /-- Of two values one is not after the other. -/
  total : ∀ a b, (cmp a b).isLE = true ∨ (cmp b a).isLE = true

/-- A lawful comparison puts values in a total order. -/
theorem totalOrder_of_lawful [Std.TransCmp cmp] [Std.LawfulEqCmp cmp] : TotalOrder cmp where
  swap _ _ := Std.OrientedCmp.eq_swap
  eq_iff _ _ := Std.LawfulEqCmp.compare_eq_iff_eq
  antisymm _ _ hab hba := Std.LawfulEqCmp.eq_of_compare (Std.OrientedCmp.isLE_antisymm hab hba)
  trans _ _ _ := Std.TransCmp.isLE_trans
  lt_trans _ _ _ := Std.TransCmp.lt_trans
  total := isLE_total

/-- Elements that are all not after one another are left in the order given. -/
theorem filter_mergeSort {le : α → α → Bool}
    (trans : ∀ a b c, le a b = true → le b c = true → le a c = true)
    (total : ∀ a b, (le a b || le b a) = true) {p : α → Bool}
    (h : ∀ a b, p a = true → p b = true → le a b = true) (l : List α) :
    (l.mergeSort le).filter p = l.filter p := by
  have hordered : (l.filter p).Pairwise fun a b => le a b = true := by
    refine List.pairwise_of_forall_mem_list fun a ha b hb => ?_
    exact h a b (List.mem_filter.1 ha).2 (List.mem_filter.1 hb).2
  -- In order as they are, they are a part of the sorted list, and it has no others.
  have hsublist : (l.filter p).Sublist (l.mergeSort le) :=
    List.sublist_mergeSort trans total hordered List.filter_sublist
  have hfiltered : (l.filter p).Sublist ((l.mergeSort le).filter p) := by
    simpa using hsublist.filter p
  have hperm : ((l.mergeSort le).filter p).Perm (l.filter p) := (List.mergeSort_perm l le).filter p
  exact (hfiltered.eq_of_length hperm.length_eq.symm).symm

end FlatRecord
