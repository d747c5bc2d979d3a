import FlatRecord.Proofs.Rule.SchemaKeys
import FlatRecord.Proofs.Schema.Reordering
import FlatRecord.Proofs.Validation.Run

/-!
# Validation and the order of declarations

Schemas that declare the same fields in another order, at any of their levels, validate alike
(`validate_reordered`). Up to the run of the chains nothing depends on the order
(`Schema.Reordered.complete_eq`, `Schema.Reordered.full_eq`), and the chains run in the order of the keys of
the record. The order is seen in one place only: the context of the run names the top-level fields as they
are declared. Two runs with chains that pay no heed to these names stay alike (`alike_runChains`), and the
outcome of a run does not show them (`Work.Alike.outcome_eq`).
-/

namespace FlatRecord

variable {w w' : Work} {key : Key}

/-! ## Runs that differ in the names of fields -/

/-- The outcome does not show the names of the fields. -/
theorem Work.Alike.outcome_eq (h : w.Alike w') (restored : List String) :
    w.outcome restored = w'.outcome restored := by
  obtain ⟨names, rfl⟩ := h.exists_eq
  rfl

/-- The chain does the same for records under validation that differ in the names of fields alone. -/
def Chain.IgnoresSchemaKeys (chain : Chain) : Prop := ∀ v ∈ chain, v.IgnoresSchemaKeys

/-- A chain of rules of the library pays no heed to the names. -/
theorem Chain.ignoresSchemaKeys_map (rules : List Rule) :
    Chain.IgnoresSchemaKeys (rules.map Rule.validator) := by
  intro v hv
  obtain ⟨rule, -, rfl⟩ := List.mem_map.1 hv
  exact rule.ignoresSchemaKeys

/-- Records under validation that are alike are so after a chain. -/
theorem Chain.IgnoresSchemaKeys.alike_run {chain : Chain} (h : chain.IgnoresSchemaKeys)
    (halike : w.Alike w') : (chain.run key w).Alike (chain.run key w') := by
  induction chain generalizing w w' with
  | nil => exact halike
  | cons v rest ih =>
    obtain ⟨happlied, hstops⟩ := h v List.mem_cons_self key w w' halike
    rw [run_cons, run_cons, hstops]
    split
    · exact happlied
    · exact ih (fun v' hv' => h v' (List.mem_cons_of_mem _ hv')) happlied

/-- Records under validation that are alike are so after a run. -/
theorem alike_runChains {turns : List (Key × Chain)}
    (h : ∀ turn ∈ turns, turn.2.IgnoresSchemaKeys) (halike : w.Alike w') :
    (runChains turns w).Alike (runChains turns w') := by
  induction turns generalizing w w' with
  | nil => exact halike
  | cons turn rest ih =>
    have hturn : (turn.2.run turn.1 w).Alike (turn.2.run turn.1 w') :=
      (h turn List.mem_cons_self).alike_run halike
    exact ih (fun turn' h' => h turn' (List.mem_cons_of_mem _ h')) hturn

/-! ## Reordered schemas -/

section Reordered

variable {s s' : Schema}

/-- A flat record is refused with the same error, or its runs are alike. -/
theorem validateFlat_reordered {r : Record} {f : FlatValues} (hs : s.Distinct) (h : s.Reordered s')
    (hchains : s.AllChains Chain.IgnoresSchemaKeys) (hr : r.flatten = .ok f) (c : Context)
    (names names' restored : List String) :
    (validateFlat f s' { c with schemaKeys := names' }).map (·.outcome restored) =
      (validateFlat f s { c with schemaKeys := names }).map (·.outcome restored) := by
  unfold validateFlat
  dsimp only
  rw [h.complete_eq hs hr]
  cases (Expansion.of s f).complete f with
  | error e => rfl
  | ok data =>
    -- The two runs start alike and have the same turns, as the expansions are the same.
    have hstart : (startWork (Expansion.of s' f) data { c with schemaKeys := names' }).Alike
        (startWork (Expansion.of s f) data { c with schemaKeys := names }) := by
      unfold startWork
      rw [h.full_eq hs hr]
      rfl
    have hturns : ∀ turn ∈ schedule (Expansion.of s f).full, turn.2.IgnoresSchemaKeys :=
      fun turn hturn => Expansion.of_get?_full hchains (get?_of_mem_schedule hturn)
    rw [h.full_eq hs hr]
    exact congrArg Except.ok ((alike_runChains hturns hstart).outcome_eq restored)

/-- Schemas that declare the same fields in another order accept the same objects of every record, have the
same chains for it, and validate it alike, when their validators pay no heed to the names of the fields in
the context, as no rule of the library does. -/
theorem validate_reordered (hs : s.Distinct) (h : s.Reordered s')
    (hchains : s.AllChains Chain.IgnoresSchemaKeys) :
    (∀ (r : Record) f, r.flatten = .ok f → (Expansion.of s' f).accepted = (Expansion.of s f).accepted ∧
      (Expansion.of s' f).full = (Expansion.of s f).full) ∧
    (∀ r c, validate r s' c = validate r s c) ∧
    ∀ rule : Rule, rule.validator.IgnoresSchemaKeys := by
  refine ⟨fun r f hr => ⟨h.accepted_eq f, h.full_eq hs hr⟩, fun r c => ?_, Rule.ignoresSchemaKeys⟩
  unfold validate
  cases hr : r.flatten with
  | error e => rfl
  | ok f => exact validateFlat_reordered hs h hchains hr c s.fieldNames s'.fieldNames _

end Reordered

/-- A list of numbers beside a title. -/
def ledger : Schema where
  fields := [("title", .leaf [Rule.notEmpty.validator]),
    ("numbers", .sub (number [("label", .leaf label), ("code", .leaf code)]))]
  extras := some [Rule.keepExtras.validator]
where
  /-- The chain of the label of a number, which is its code if there is none. -/
  label : Chain := [(Rule.ifEmptySameAs "code").validator]
  /-- The chain of the code of a number. -/
  code : Chain := [Rule.notEmpty.validator, Rule.integer.validator]
  /-- A number with these fields. -/
  number (fields : List (String × Node)) : Schema := { fields, before := some [] }

/-- The same with the fields in another order at both levels. -/
def ledgerReordered : Schema where
  fields := [("numbers", .sub (ledger.number [("code", .leaf ledger.code), ("label", .leaf ledger.label)])),
    ("title", .leaf [Rule.notEmpty.validator])]
  extras := some [Rule.keepExtras.validator]

/-- The two ledgers differ in the order of their fields. -/
theorem ledger_reordered : ledger.Reordered ledgerReordered := by
  have houter : ledger.Reordered { ledger with
      fields := [("numbers", .sub (ledger.number [("label", .leaf ledger.label), ("code", .leaf ledger.code)])),
        ("title", .leaf [Rule.notEmpty.validator])] } :=
    .fields (.swap _ _ [])
  have hinner : (ledger.number [("label", .leaf ledger.label), ("code", .leaf ledger.code)]).Reordered
      (ledger.number [("code", .leaf ledger.code), ("label", .leaf ledger.label)]) :=
    .fields (.swap _ _ [])
  exact houter.trans (@Schema.Reordered.inside _ _ _ [] _ "numbers" rfl hinner)

/-- A record without a title, with a field that is not declared and two numbers, the second without a
code. -/
def untitled : Record where
  entries := [("color", .str "red"),
    ("numbers", .arr [.obj [("code", .str "7")], .obj [("label", .str "x")]])]
  sorted := by decide

/-- The reordered ledger has the same outcome for a record without a title and without a code. -/
theorem validate_reordered_ledger : ledger.Distinct ∧ ledger.Reordered ledgerReordered ∧
    ledger.AllChains Chain.IgnoresSchemaKeys ∧
    ledgerReordered.fieldNames ≠ ledger.fieldNames ∧
    (∃ o, validate untitled ledger {} = .ok o ∧ validate untitled ledgerReordered {} = .ok o ∧
      o.fieldErrors.map (·.key.text) = ["title", "numbers[1].code"] ∧
      o.data.get? "color" = some (.str "red")) ∧
    ∀ r c, validate r ledgerReordered c = validate r ledger c := by
  have hs : ledger.Distinct := by decide
  have hchains : ledger.AllChains Chain.IgnoresSchemaKeys := by
    have hrules := Chain.ignoresSchemaKeys_map
    refine ⟨⟨hrules [.notEmpty], ⟨⟨hrules [.ifEmptySameAs "code"], hrules [.notEmpty, .integer], trivial⟩,
      fun slot chain hslot => ?_⟩, trivial⟩, fun slot chain hslot => ?_⟩
    · cases slot <;> cases hslot
      exact hrules []
    · cases slot <;> cases hslot
      exact hrules [.keepExtras]
  obtain ⟨-, hsame, -⟩ := validate_reordered hs ledger_reordered hchains
  refine ⟨hs, ledger_reordered, hchains, by decide, ?_, hsame⟩
  obtain ⟨o, ho, hkeys, hcolor⟩ : ∃ o, validate untitled ledger {} = .ok o ∧
      o.fieldErrors.map (·.key.text) = ["title", "numbers[1].code"] ∧
      o.data.get? "color" = some (.str "red") := ⟨_, rfl, rfl, rfl⟩
  exact ⟨o, ho, (hsame untitled {}).trans ho, hkeys, hcolor⟩

end FlatRecord
