import FlatRecord.Proofs.Rule.Effects

/-!
# Rules and the names of the fields

The context of a run names the top-level fields of the schema in use. A validator that pays no heed to these
names does the same whatever they are (`Validator.IgnoresSchemaKeys`): of two records under validation that
differ in the names alone it makes two that differ in the names alone, and it stops in both or in neither. No
rule of the library reads the names (`Rule.ignoresSchemaKeys`).
-/

namespace FlatRecord

namespace Work

/-- The record under validation with other names of fields in its context. -/
def withSchemaKeys (w : Work) (names : List String) : Work :=
  { w with context := { w.context with schemaKeys := names } }

/-- Two records under validation differ at most in the names of fields in their contexts. -/
def Alike (w w' : Work) : Prop := w.withSchemaKeys [] = w'.withSchemaKeys []

variable {w w' : Work} {names : List String} {key : Key}

/-- With other names the record under validation is alike. -/
theorem alike_withSchemaKeys (w : Work) (names : List String) : w.Alike (w.withSchemaKeys names) := rfl

/-- Two records under validation that are alike differ by names of fields. -/
theorem Alike.exists_eq (h : w.Alike w') : ∃ names, w' = w.withSchemaKeys names :=
  ⟨w'.context.schemaKeys, (congrArg (·.withSchemaKeys w'.context.schemaKeys) h).symm⟩

/-- Messages are recorded without regard to the names. -/
theorem foldl_report_withSchemaKeys {α : Type} (l : List α) (message : α → String) (w : Work) :
    l.foldl (fun w a => w.report key (message a)) (w.withSchemaKeys names) =
      (l.foldl (fun w a => w.report key (message a)) w).withSchemaKeys names := by
  induction l generalizing w with
  | nil => rfl
  | cons a rest ih => exact ih (w.report key (message a))

end Work

namespace Validator

/-- The validator does the same for records under validation that differ in the names of fields alone. -/
def IgnoresSchemaKeys (v : Validator) : Prop :=
  ∀ key w w', Work.Alike w w' →
    (v.apply key w).1.Alike (v.apply key w').1 ∧ (v.apply key w).2 = (v.apply key w').2

variable {v : Validator} {key : Key} {w : Work} {names : List String}

/-- A validator to which the names make no difference. -/
theorem ignoresSchemaKeys_of_apply (h : ∀ key w names, v.apply key (w.withSchemaKeys names) =
    ((v.apply key w).1.withSchemaKeys names, (v.apply key w).2)) : v.IgnoresSchemaKeys := by
  intro key w w' halike
  obtain ⟨names, rfl⟩ := halike.exists_eq
  rw [h]
  exact ⟨Work.alike_withSchemaKeys _ names, rfl⟩

/-- Settling a signal does not look at the names. -/
theorem settle_withSchemaKeys (signal : Option Signal) :
    settle key (w.withSchemaKeys names) signal =
      ((settle key w signal).1.withSchemaKeys names, (settle key w signal).2) := by
  cases signal with
  | none => rfl
  | some signal => cases signal <;> rfl

/-- An edit that neither reads nor changes the names. -/
def Unaware (act : Key → Work → Work × Option Signal) : Prop :=
  ∀ key w names, act key (w.withSchemaKeys names) = ((act key w).1.withSchemaKeys names, (act key w).2)

/-- An edit or another, as a test says that does not read the names. -/
theorem Unaware.ite {test : Key → Work → Bool} {act act' : Key → Work → Work × Option Signal}
    (htest : ∀ key w names, test key (Work.withSchemaKeys w names) = test key w)
    (h : Unaware act) (h' : Unaware act') :
    Unaware fun key w => if test key w then act key w else act' key w := by
  intro key w names
  dsimp only
  rw [htest]
  cases test key w with
  | true => exact h key w names
  | false => exact h' key w names

/-- A validator that edits the record without regard to the names. -/
theorem Unaware.ignoresSchemaKeys {act : Key → Work → Work × Option Signal} (h : Unaware act) :
    (context act).IgnoresSchemaKeys := by
  refine ignoresSchemaKeys_of_apply fun key w names => ?_
  show settle key (act key (w.withSchemaKeys names)).1 (act key (w.withSchemaKeys names)).2 = _
  rw [h, settle_withSchemaKeys]
  rfl

/-- A validator that converts the value without regard to the names. -/
theorem ignoresSchemaKeys_of_convert (hv : v.isValueValidator = true)
    (h : ∀ d c names, v.convert d { c with schemaKeys := names } = v.convert d c) :
    v.IgnoresSchemaKeys := by
  refine ignoresSchemaKeys_of_apply fun key w names => ?_
  have hconvert : v.convert ((w.withSchemaKeys names).datum key) (w.withSchemaKeys names).context =
      v.convert (w.datum key) w.context :=
    h (w.datum key) w.context names
  rw [apply_of_isValueValidator hv, apply_of_isValueValidator hv, hconvert]
  cases v.convert (w.datum key) w.context with
  | ok d => rfl
  | error signal => exact settle_withSchemaKeys (some signal)

end Validator

/-! ## Rules -/

open Validator (Unaware)

namespace Presence

/-- `proceed` does not look at the names. -/
theorem unaware_proceed : Unaware fun _ w => proceed w := fun _ _ _ => rfl

/-- `require` does not look at the names. -/
theorem unaware_require : Unaware require := fun _ _ _ => rfl

/-- `ignore` does not look at the names. -/
theorem unaware_ignore : Unaware ignore := fun _ _ _ => rfl

/-- `notMissing` does not look at the names. -/
theorem unaware_notMissing : Unaware notMissing :=
  .ite (fun _ _ _ => rfl) unaware_require unaware_proceed

/-- `notEmpty` does not look at the names. -/
theorem unaware_notEmpty : Unaware notEmpty :=
  .ite (fun _ _ _ => rfl) unaware_require unaware_proceed

/-- `ignoreMissing` does not look at the names. -/
theorem unaware_ignoreMissing : Unaware ignoreMissing :=
  .ite (fun _ _ _ => rfl) unaware_ignore unaware_proceed

/-- `ignoreEmpty` does not look at the names. -/
theorem unaware_ignoreEmpty : Unaware ignoreEmpty :=
  .ite (fun _ _ _ => rfl) unaware_ignore unaware_proceed

/-- `empty` does not look at the names. -/
theorem unaware_empty : Unaware empty :=
  .ite (fun _ _ _ => rfl) (fun _ _ _ => rfl) fun _ _ _ => rfl

/-- `keepExtras` does not look at the names. -/
theorem unaware_keepExtras : Unaware keepExtras := fun _ _ _ => rfl

/-- `default` does not look at the names. -/
theorem unaware_default (value : Json) : Unaware (default value) :=
  .ite (fun _ _ _ => rfl) (fun _ _ _ => rfl) unaware_proceed

/-- `ifEmptySameAs` does not look at the names. -/
theorem unaware_ifEmptySameAs (other : String) : Unaware (ifEmptySameAs other) :=
  .ite (fun _ _ _ => rfl) (fun _ _ _ => rfl) unaware_proceed

/-- `bothNotEmpty` does not look at the names. -/
theorem unaware_bothNotEmpty (other : String) : Unaware (bothNotEmpty other) :=
  .ite (fun _ _ _ => rfl) unaware_require unaware_proceed

end Presence

/-- `spreadTags` does not look at the names. -/
theorem Naming.unaware_spreadTags (list : String) : Unaware (spreadTags list) := by
  intro key w names
  have hdatum : (w.withSchemaKeys names).datum key = w.datum key := rfl
  unfold spreadTags
  rw [hdatum]
  cases tagsOf (w.datum key) with
  | error complaint => rfl
  -- The record is the same for both, and the messages are added to it alike.
  | ok tags =>
    refine congrArg (·, none) ?_
    exact Work.foldl_report_withSchemaKeys _ _ (w.patch ⟨tagEntries list (nextPosition list w.data) tags, []⟩)

namespace Lookup

/-- `nameUnique` reads the session in the context, and does not look at the names. -/
theorem unaware_nameUnique (kind : String) : Unaware (nameUnique kind) := by
  intro key w names
  have hdatum : (w.withSchemaKeys names).datum key = w.datum key := rfl
  have hsession : (w.withSchemaKeys names).context.requireSession = w.context.requireSession := rfl
  have hown : ownId? kind key (w.withSchemaKeys names) = ownId? kind key w := rfl
  unfold nameUnique
  rw [hdatum]
  cases (w.datum key).str? with
  | none => rfl
  | some name =>
    dsimp only
    rw [hsession]
    -- The search goes to the session, which is not among the names.
    cases w.context.requireSession.bind (·.findFirst? kind [("name", .text name)]) with
    | error e => rfl
    | ok found => cases found with
      | none => rfl
      | some row =>
        dsimp only
        rw [hown]
        cases isRival (ownId? kind key w) row <;> rfl

/-- `duplicateKey` does not look at the names. -/
theorem unaware_duplicateKey (list field : String) : Unaware (duplicateKey list field) := by
  intro key w names
  refine congrArg (·, none) ?_
  exact Work.foldl_report_withSchemaKeys _ _ w

end Lookup

/-- No rule of the library reads the names of the fields. -/
theorem Rule.ignoresSchemaKeys (rule : Rule) : rule.validator.IgnoresSchemaKeys := by
  cases rule with
  | notMissing => exact Presence.unaware_notMissing.ignoresSchemaKeys
  | notEmpty => exact Presence.unaware_notEmpty.ignoresSchemaKeys
  | ignore => exact Presence.unaware_ignore.ignoresSchemaKeys
  | ignoreMissing => exact Presence.unaware_ignoreMissing.ignoresSchemaKeys
  | ignoreEmpty => exact Presence.unaware_ignoreEmpty.ignoresSchemaKeys
  | empty => exact Presence.unaware_empty.ignoresSchemaKeys
  | keepExtras => exact Presence.unaware_keepExtras.ignoresSchemaKeys
  | default value => exact (Presence.unaware_default value).ignoresSchemaKeys
  | ifEmptySameAs other => exact (Presence.unaware_ifEmptySameAs other).ignoresSchemaKeys
  | bothNotEmpty other => exact (Presence.unaware_bothNotEmpty other).ignoresSchemaKeys
  | spreadTags list => exact (Naming.unaware_spreadTags list).ignoresSchemaKeys
  | nameUnique kind => exact (Lookup.unaware_nameUnique kind).ignoresSchemaKeys
  | duplicateKey list field => exact (Lookup.unaware_duplicateKey list field).ignoresSchemaKeys
  -- The others convert the value, and of the context they read the session at most.
  | _ => exact Validator.ignoresSchemaKeys_of_convert rfl fun _ _ _ => rfl

end FlatRecord
