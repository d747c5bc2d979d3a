import FlatRecord.Proofs.Comparison
import FlatRecord.Proofs.Key

/-!
# The order of keys

Segments are in a total order, and so are keys (`Key.total_order_outer_first`).

Keys that contain others come first. A key is longer than any leading run of its segments, so it is behind
them (`Key.lt_of_startsWith`). And two keys of one length stay in their order whatever segment is put behind
each of them (`Key.push_lt_push`), so all that is in one object or list is behind all that is in an earlier
one at the same depth.
-/

namespace FlatRecord

namespace Key

variable {k l p : Key}

/-- A key is behind each other key that is a leading run of its segments. -/
theorem lt_of_startsWith (h : k.startsWith p = true) (hne : p ≠ k) : compare p k = .lt :=
  lt_of_length_lt (length_lt_of_isPrefix (List.isPrefixOf_iff_prefix.1 h) hne)

/-- Keys of one length stay in their order with whatever segments behind them. -/
theorem push_lt_push (hlength : k.length = l.length) (h : compare k l = .lt) (s t : Segment) :
    compare (k.push s) (l.push t) = .lt := by
  rw [compare_push_push hlength, h, Ordering.lt_then]

/-- Segments and keys are in total orders. A key comes before all that it contains, and if it comes before
another key of the same length, all that it contains at the next depth comes before what the other one
contains there. -/
theorem total_order_outer_first :
    TotalOrder Segment.order ∧ TotalOrder Key.order ∧
      (∀ p k : Key, k.startsWith p = true → p ≠ k → p.order k = .lt) ∧
      ∀ (k l : Key) (s t : Segment), k.length = l.length → k.order l = .lt →
        (k.push s).order (l.push t) = .lt := by
  -- Both comparisons obey the laws of a linear order, from which the rest is read off.
  have hsegments : Std.TransCmp Segment.order := inferInstanceAs (Std.TransOrd Segment)
  have hsegmentsEq : Std.LawfulEqCmp Segment.order := inferInstanceAs (Std.LawfulEqOrd Segment)
  have hkeys : Std.TransCmp Key.order := inferInstanceAs (Std.TransOrd Key)
  have hkeysEq : Std.LawfulEqCmp Key.order := inferInstanceAs (Std.LawfulEqOrd Key)
  exact ⟨totalOrder_of_lawful, totalOrder_of_lawful, fun p k => lt_of_startsWith,
    fun k l s t hlength h => push_lt_push hlength h s t⟩

/-- The key of one of some numbers. -/
def ofNumber (position : Nat) : Key := (root.field "numbers").index position

/-- The number at position 2 comes before what is inside it, and it and its slot come before the number at
position 10 and its code. -/
theorem total_order_outer_first_numbers :
    ((ofNumber 2).field "code").startsWith (ofNumber 2) = true ∧ ofNumber 2 ≠ (ofNumber 2).field "code" ∧
      (ofNumber 2).order ((ofNumber 2).field "code") = .lt ∧
    (ofNumber 2).length = (ofNumber 10).length ∧ (ofNumber 2).order (ofNumber 10) = .lt ∧
      ((ofNumber 2).slot .after).order ((ofNumber 10).field "code") = .lt := by
  obtain ⟨-, -, hprefix, hpush⟩ := total_order_outer_first
  have hstarts : ((ofNumber 2).field "code").startsWith (ofNumber 2) = true := by decide
  have hne : ofNumber 2 ≠ (ofNumber 2).field "code" := by decide
  have hlt : (ofNumber 2).order (ofNumber 10) = .lt := by decide
  exact ⟨hstarts, hne, hprefix _ _ hstarts hne, rfl, hlt, hpush _ _ _ _ rfl hlt⟩

end Key

end FlatRecord
