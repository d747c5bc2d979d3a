import FlatRecord.Json

/-!
# Agreement

Two values agree when they are the same up to the sign of zeros. Not-a-number agrees with nothing, so a
value agrees with itself when every number in it is one (`Json.agrees_self`). The grammar of records has
no way to write not-a-number.
-/

namespace FlatRecord

namespace Binary64

/-- A number is the same as itself, unless it is not a number. -/
theorem sameNumber_self {x : Binary64} (h : x ≠ nan) : x.sameNumber x = true := by
  cases x with
  | nan => exact absurd rfl h
  | infinite negative => exact decide_eq_true rfl
  | finite negative m e =>
    cases m with
    | zero => rfl
    | succ m => simp [sameNumber]

end Binary64

namespace Json

mutual

/-- No number in the value is not-a-number. -/
def Numeric : Json → Prop
  | float x => x ≠ .nan
  | arr items => NumericItems items
  | obj fields => NumericFields fields
  | _ => True
termination_by structural v => v

/-- No number in the items of a list is not-a-number. -/
def NumericItems : List Json → Prop
  | [] => True
  | v :: rest => Numeric v ∧ NumericItems rest
termination_by structural l => l

/-- No number in the values of an object is not-a-number. -/
def NumericFields : List (String × Json) → Prop
  | [] => True
  | (_, v) :: rest => Numeric v ∧ NumericFields rest
termination_by structural l => l

end

mutual

/-- A value without not-a-number agrees with itself. -/
theorem agrees_self : ∀ v : Json, v.Numeric → v.agrees v = true
  | null, _ => rfl
  | bool _, _ => decide_eq_true rfl
  | int _, _ => decide_eq_true rfl
  | float _, h => Binary64.sameNumber_self h
  | str _, _ => decide_eq_true rfl
  | arr items, h => agreesItems_self items h
  | obj fields, h => agreesFields_self fields h

/-- Items without not-a-number agree with themselves. -/
theorem agreesItems_self : ∀ items : List Json, NumericItems items → agreesItems items items = true
  | [], _ => rfl
  | v :: rest, h => by
    rw [agreesItems, agrees_self v h.1, agreesItems_self rest h.2]
    rfl

/-- Fields without not-a-number agree with themselves. -/
theorem agreesFields_self :
    ∀ fields : List (String × Json), NumericFields fields → agreesFields fields fields = true
  | [], _ => rfl
  | (name, v) :: rest, h => by
    rw [agreesFields, agrees_self v h.1, agreesFields_self rest h.2]
    simp

end

end Json

end FlatRecord
