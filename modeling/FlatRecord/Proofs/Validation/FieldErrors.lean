import FlatRecord.Proofs.Validation.Messages
import FlatRecord.Proofs.Validation.OneList
import FlatRecord.Rule

/-!
# Field errors and the error tree

An outcome shows its messages twice, as a list of field errors and as an error tree. The two agree on
whether there are any (`errors_empty_iff`).

They agree on where a message is, too, when its key is the last with a message on its path, and no
position is missing before one on the path (`errors_at_key`). Otherwise the tree does not show the
message where its field error says: an object in which no chain runs has no place in the tree, so
the messages of the objects after it move up, and a list does not keep its own messages beside those
of its items (`errors_off_key`).
-/

namespace FlatRecord

variable {s : Schema} {r : Record} {f : FlatValues} {c : Context} {o : Outcome}

/-! ## A list with required fields -/

/-- Complains about the length of a list, whatever it is. -/
def tooMany (list : Key) : Validator :=
  .context fun _ w => (w.report list "Too many", none)

/-- Objects in a list, each with a required field, and a chain for the record. -/
def codes (after : Chain) : Schema :=
  { Schema.ofList "numbers" { fields := [("code", .leaf [Rule.notEmpty.validator])] } with
    after := some after }

/-- No name in the schema is that of a slot. -/
theorem allNames_codes (after : Chain) : (codes after).AllNames Control.Unused :=
  ⟨by decide, ⟨by decide, trivial, trivial⟩, trivial⟩

/-- The complaint about the length of a list is reported under the list. -/
theorem reportsUnder_tooMany {reports : Key → Prop} {list : Key} (hlist : reports list) :
    (tooMany list).ReportsUnder reports :=
  Validator.reportsUnder_context fun _ w _ => Messages.grows_report w hlist _

/-- The rule for required fields reports under the key that it is applied to. -/
theorem reportsUnder_notEmpty {reports : Key → Prop} :
    Rule.notEmpty.validator.ReportsUnder reports := by
  refine Validator.reportsUnder_context fun key w hkey => ?_
  unfold Presence.notEmpty
  split
  · exact Messages.grows_report w hkey _
  · exact .refl _

/-- All chains of the schema report under some keys if the chain for the record does. -/
theorem allChains_codes {reports : Key → Prop} {after : Chain} (hafter : after.ReportsUnder reports) :
    (codes after).AllChains (Chain.ReportsUnder reports) := by
  -- The chain of the codes reports under its own key.
  have hcode : Chain.ReportsUnder reports [Rule.notEmpty.validator] := fun v hv => by
    rw [List.mem_singleton.1 hv]
    exact reportsUnder_notEmpty
  refine ⟨⟨⟨⟨hcode, trivial⟩, nofun⟩, trivial⟩, fun slot chain hchain => ?_⟩
  cases slot with
  | after =>
    cases hchain
    exact hafter
  | _ => cases hchain

/-! ## Whether there are messages -/

/-- If all keys are addresses and items of lists are keys only for the messages that they have, the
error tree is empty exactly when no list of messages has one. The messages of a run are such when no
field has the name of a slot and validators report under addresses, so then an outcome is valid
exactly when its error tree is empty. -/
theorem errors_empty_iff :
    (∀ m : Messages, m.Regular → (m.tree = ∅ ↔ ∀ k l, m.get? k = some l → l = [])) ∧
    ∀ (s : Schema) (r : Record) (c : Context) (o : Outcome), s.Distinct →
      s.AllNames Control.Unused → s.AllChains (Chain.ReportsUnder Key.IsAddress) →
      validate r s c = .ok o → (o.isValid = true ↔ o.errors = ∅) := by
  have hmessages : ∀ m : Messages, m.Regular →
      (m.tree = ∅ ↔ ∀ k l, m.get? k = some l → l = []) := fun m hm =>
    ⟨fun htree _ _ hl => hm.eq_nil_of_tree_eq_empty htree hl, hm.tree_eq_empty⟩
  refine ⟨hmessages, fun s r c o hs hnames hchains ho => ?_⟩
  obtain ⟨f, w, hr, hw, rfl⟩ := validate_eq_ok_iff.1 ho
  have hregular := regular_messages_validateFlat hs hnames hchains hr hw
  exact Messages.isEmpty_fieldErrors_iff.trans (hmessages w.messages hregular).symm

/-- Messages of a list, of an item and of a field in another item. -/
def crowded : Messages := .ofList [
  (⟨[.field "numbers"]⟩, ["Too many"]),
  (⟨[.field "numbers", .index 0, .field "code"]⟩, []),
  (⟨[.field "numbers", .index 1]⟩, ["Too many"]),
  (⟨[.field "numbers", .index 2, .field "code"]⟩, ["Missing value"])]

/-- The crowded messages are regular. -/
theorem regular_crowded : crowded.Regular where
  address := by decide
  item := by
    rintro k l hl ⟨i, hi⟩ rfl
    have hempty : ∀ e ∈ crowded.entries, e.2 = [] →
        e.1 = ⟨[.field "numbers", .index 0, .field "code"]⟩ := by decide
    have hkey : k = ⟨[.field "numbers", .index 0, .field "code"]⟩ :=
      hempty (k, []) ((SortedMap.get?_eq_some_iff _).1 hl) rfl
    rw [hkey] at hi
    cases hi

/-- The crowded messages and an empty code in a list: both have a tree that is not empty. -/
theorem errors_empty_iff_crowded :
    crowded.Regular ∧ (crowded.tree = ∅ ↔ ∀ k l, crowded.get? k = some l → l = []) ∧
    (codes []).Distinct ∧ (codes []).AllNames Control.Unused ∧
    (codes []).AllChains (Chain.ReportsUnder Key.IsAddress) ∧
    ∃ o, validate (.ofList "numbers" [[("code", .str "")]]) (codes []) {} = .ok o ∧
      o.isValid = false ∧ (o.isValid = true ↔ o.errors = ∅) := by
  have hs : (codes []).Distinct := by decide
  have hchains : (codes []).AllChains (Chain.ReportsUnder Key.IsAddress) := allChains_codes nofun
  obtain ⟨hmessages, houtcome⟩ := errors_empty_iff
  obtain ⟨o, ho, hvalid⟩ : ∃ o, validate (.ofList "numbers" [[("code", .str "")]]) (codes []) {} =
      .ok o ∧ o.isValid = false := ⟨_, rfl, rfl⟩
  exact ⟨regular_crowded, hmessages crowded regular_crowded, hs, allNames_codes [], hchains, o, ho,
    hvalid, houtcome _ _ _ o hs (allNames_codes []) hchains ho⟩

/-! ## Where the messages are -/

/-- The error tree has something at the path: a field error under a key that goes on from it, or a chain
under such a key with no field error on the way to it. -/
def Outcome.Marks (o : Outcome) (e : Expansion) (path : List Segment) : Prop :=
  ∃ rest, (∃ x ∈ o.fieldErrors, x.key.segments = path ++ rest) ∨
    (∃ chain, e.full.get? ⟨path ++ rest⟩ = some chain) ∧
      ∀ x ∈ o.fieldErrors, x.key.segments <+: path ++ rest → x.key.segments = path ++ rest

/-- A message is found in the error tree under its key, unless a longer key has a message, or a position
before one of the key is missing. -/
theorem errors_at_key (hs : s.Distinct) (hnames : s.AllNames Control.Unused)
    (hchains : s.AllChains (Chain.ReportsUnder Key.IsAddress)) (hr : r.flatten = .ok f)
    (ho : validate r s c = .ok o) {e : FieldError} (he : e ∈ o.fieldErrors)
    (hlast : ∀ x ∈ o.fieldErrors, e.key.segments <+: x.key.segments →
      x.key.segments = e.key.segments)
    (hfull : ∀ before i after, e.key.segments = before ++ .index i :: after → ∀ j < i,
      o.Marks (Expansion.of s f) (before ++ [.index j])) :
    ∃ texts, o.errors.at? e.key = some (.ofStrings texts) ∧ e.message ∈ texts := by
  obtain ⟨f', w, hr', hw, rfl⟩ := validate_eq_ok_iff.1 ho
  obtain rfl : f = f' := Except.ok.inj (hr.symm.trans hr')
  have hregular := regular_messages_validateFlat hs hnames hchains hr hw
  obtain ⟨hkept, -⟩ := get?_messages_validateFlat hchains
    (fun k chain hget => Expansion.isAddress_of_get?_full hs hr hnames hget) hw
  obtain ⟨-, texts, htexts, hmessage⟩ := Messages.mem_fieldErrors_iff.1 he
  refine ⟨texts, ?_, hmessage⟩
  -- A flagged key is one that has a field error, and of those none goes on from the key.
  have hlast' : ∀ below, w.messages.Flagged below → e.key.segments <+: below.segments →
      below.segments = e.key.segments := by
    intro below hbelow
    obtain ⟨x, hx, rfl⟩ := Messages.flagged_iff.1 hbelow
    exact hlast x hx
  -- What marks a position is an entry of what is nested.
  have hgapless : w.messages.unshadow.toFlat.Gapless e.key := by
    intro before i after hsplit j hj
    have hpath : ∀ rest, before ++ .index j :: rest = before ++ [.index j] ++ rest := by simp
    obtain ⟨rest, ⟨x, hx, hkey⟩ | ⟨⟨chain, hchain⟩, hclear⟩⟩ := hfull before i after hsplit j hj
    · -- A field error below the position keeps it.
      obtain ⟨l, hl, hne⟩ := Messages.flagged_iff.2 ⟨x, hx, rfl⟩
      have hx : x.key = ⟨before ++ .index j :: rest⟩ := by rw [hpath, ← hkey]
      rw [hx] at hl
      exact ⟨rest, _, Messages.get?_toFlat_unshadow_eq_some_iff.2 ⟨l, hl, .inl hne, rfl⟩⟩
    · -- A key with a chain below the position, with no message above it, keeps it too.
      rw [← hpath] at hchain hclear
      obtain ⟨l, hl⟩ := hkept _ chain hchain
      have hclear : w.messages.Clear ⟨before ++ .index j :: rest⟩ := by
        intro above habove
        obtain ⟨x, hx, rfl⟩ := Messages.flagged_iff.1 habove
        exact hclear x hx
      exact ⟨rest, _, Messages.get?_toFlat_unshadow_eq_some_iff.2 ⟨l, hl, .inr hclear, rfl⟩⟩
  exact Messages.at?_tree hregular.address htexts (List.ne_nil_of_mem hmessage) hlast' hgapless

/-- The field error of an item after one without. -/
def secondMissing : FieldError where
  key := ⟨[.field "numbers", .index 1, .field "code"]⟩
  message := "Missing value"

/-- The message of the second number is found under its position, since the first number has chains. -/
theorem errors_at_key_second :
    (codes []).Distinct ∧ (codes []).AllNames Control.Unused ∧
    (codes []).AllChains (Chain.ReportsUnder Key.IsAddress) ∧
    ∃ f o, (Record.ofList "numbers" [[("code", .str "x")], [("code", .str "")]]).flatten = .ok f ∧
      validate (.ofList "numbers" [[("code", .str "x")], [("code", .str "")]]) (codes []) {} = .ok o ∧
      secondMissing ∈ o.fieldErrors ∧
      (∀ x ∈ o.fieldErrors, secondMissing.key.segments <+: x.key.segments →
        x.key.segments = secondMissing.key.segments) ∧
      (∀ before i after, secondMissing.key.segments = before ++ .index i :: after → ∀ j < i,
        o.Marks (Expansion.of (codes []) f) (before ++ [.index j])) ∧
      ∃ texts, o.errors.at? secondMissing.key = some (.ofStrings texts) ∧
        secondMissing.message ∈ texts := by
  have hs : (codes []).Distinct := by decide
  have hchains : (codes []).AllChains (Chain.ReportsUnder Key.IsAddress) := allChains_codes nofun
  obtain ⟨f, o, hr, ho, herrors, hfirst⟩ : ∃ f o,
      (Record.ofList "numbers" [[("code", .str "x")], [("code", .str "")]]).flatten = .ok f ∧
      validate (.ofList "numbers" [[("code", .str "x")], [("code", .str "")]]) (codes []) {} = .ok o ∧
      o.fieldErrors = [secondMissing] ∧
      (Expansion.of (codes []) f).full.get? ⟨[.field "numbers", .index 0, .field "code"]⟩ =
        some [Rule.notEmpty.validator] := ⟨_, _, rfl, rfl, rfl, rfl⟩
  have hmem : secondMissing ∈ o.fieldErrors := by
    rw [herrors]
    exact List.mem_cons_self
  have hlast : ∀ x ∈ o.fieldErrors, secondMissing.key.segments <+: x.key.segments →
      x.key.segments = secondMissing.key.segments := by
    intro x hx _
    rw [herrors, List.mem_singleton] at hx
    rw [hx]
  have hfull : ∀ before i after, secondMissing.key.segments = before ++ .index i :: after → ∀ j < i,
      o.Marks (Expansion.of (codes []) f) (before ++ [.index j]) := by
    intro before i after hsplit j hj
    have hsplit : [.field "numbers", .index 1, .field "code"] = before ++ .index i :: after := hsplit
    -- The one position of the key follows the name of the list.
    obtain ⟨rfl, rfl⟩ : before = [.field "numbers"] ∧ i = 1 := by
      match before, hsplit with
      | [_], rfl => exact ⟨rfl, rfl⟩
      | _ :: _ :: _ :: before, hsplit => simp at hsplit
    obtain rfl : j = 0 := by omega
    refine ⟨[.field "code"], .inr ⟨⟨_, hfirst⟩, fun x hx hbegins => ?_⟩⟩
    rw [herrors, List.mem_singleton] at hx
    rw [hx] at hbegins
    exact absurd hbegins (by decide)
  exact ⟨hs, allNames_codes [], hchains, f, o, hr, ho, hmem, hlast, hfull,
    errors_at_key hs (allNames_codes []) hchains hr ho hmem hlast hfull⟩

/-- The outcome does not show a field error under its key. -/
def Outcome.Misplaces (o : Outcome) (e : FieldError) : Prop :=
  e ∈ o.fieldErrors ∧ ∀ texts, o.errors.at? e.key = some (.ofStrings texts) → e.message ∉ texts

/-- After an object without values the message of an object moves up, and the message of a list is lost
beside one of its objects. -/
theorem errors_off_key :
    ((codes []).Distinct ∧ (codes []).AllNames Control.Unused ∧
      (codes []).AllChains (Chain.ReportsUnder Key.IsAddress) ∧
      ∃ o, validate (.ofList "numbers" [[], [("code", .str "")]]) (codes []) {} = .ok o ∧
        o.Misplaces secondMissing) ∧
    ((codes [tooMany ⟨[.field "numbers"]⟩]).Distinct ∧
      (codes [tooMany ⟨[.field "numbers"]⟩]).AllNames Control.Unused ∧
      (codes [tooMany ⟨[.field "numbers"]⟩]).AllChains (Chain.ReportsUnder Key.IsAddress) ∧
      ∃ o, validate (.ofList "numbers" [[("code", .str "")]])
          (codes [tooMany ⟨[.field "numbers"]⟩]) {} = .ok o ∧
        o.Misplaces { key := ⟨[.field "numbers"]⟩, message := "Too many" }) := by
  have hafter : Chain.ReportsUnder Key.IsAddress [tooMany ⟨[.field "numbers"]⟩] := fun v hv => by
    rw [List.mem_singleton.1 hv]
    exact reportsUnder_tooMany (by decide)
  refine ⟨⟨by decide, allNames_codes _, allChains_codes nofun, _, rfl, List.mem_cons_self, ?_⟩,
    by decide, allNames_codes _, allChains_codes hafter, _, rfl, List.mem_cons_self, ?_⟩
  · intro texts htexts
    -- The list of the tree has one object, the one that has moved.
    cases htexts
  · intro texts htexts hmem
    -- There is the list of the objects, and no list of texts.
    have hlist : Json.arr [.obj [("code", .arr [.str "Missing value"])]] = .ofStrings texts :=
      Option.some.inj htexts
    obtain ⟨text, rest, rfl⟩ := List.exists_cons_of_ne_nil (List.ne_nil_of_mem hmem)
    rw [Json.ofStrings, List.map_cons, Json.arr.injEq, List.cons.injEq] at hlist
    cases hlist.1

end FlatRecord
