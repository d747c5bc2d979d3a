import FlatRecord.Proofs.Schema.FullSchema
import FlatRecord.Proofs.Schema.Routing
import FlatRecord.Proofs.Validation.OneList
import FlatRecord.Proofs.Validation.Run

/-!
# Required fields

A field is required when its chain starts with `notEmpty`. In a valid outcome every accepted object
of the record has its required fields filled in (`exists_get?_of_valid`): the chain finds the value of
the record under the key, because rules that run earlier write elsewhere, and what it reports is not
taken back.

An object is accepted when each object on the way to it, and the object itself, holds a value that is
not an expanded list, and the schema has a chain of its own for each of the lists. So an object without
such a value escapes the check, as does one in a list for which the schema has only further lists; and
where a chain that runs earlier moves the contents of an object beside it (`keepExtras`), the check
finds the value moved there. `Bypasses` is the predicate for such records.
-/

namespace FlatRecord

variable {s node : Schema} {r : Record} {f : FlatValues} {a : FlatData} {path : ItemPath}
  {names : List String} {g : String} {chain : Chain} {element : List (String × Json)}

/-! ## Objects that flattening sees -/

namespace Json

/-- A path leads from the object with the first fields to the object with the last ones, and each object
that it goes into holds a value that is not an expanded list. -/
inductive Visible : List (String × Json) → ItemPath → List (String × Json) → Prop
  /-- The empty path stays where it is. -/
  | here (fields : List (String × Json)) : Visible fields [] fields
  /-- One step goes to an object in a list. -/
  | item {fields name items position inner path last} (hlist : (name, arr items) ∈ fields)
      (hitem : items[position]? = some (obj inner))
      (hown : ∃ field ∈ inner, field.2.expands = false) (hrest : Visible inner path last) :
      Visible fields ((name, position) :: path) last

/-- What is visible on a path is on the path. -/
theorem Visible.within {fields last : List (String × Json)} {path : ItemPath}
    (h : Visible fields path last) : Within (fun _ => true) fields path last := by
  induction h with
  | here fields => exact .here fields
  | item hlist hitem _ _ ih => exact .item hlist rfl hitem ih

/-- Each object on the way to a visible one holds a value that is not an expanded list. -/
theorem Visible.exists_take {fields last : List (String × Json)} {path : ItemPath}
    (h : Visible fields path last) {j : Nat} (hj : 1 ≤ j) (hle : j ≤ path.length) :
    ∃ inner, Within (fun _ => true) fields (path.take j) inner ∧
      ∃ field ∈ inner, field.2.expands = false := by
  induction h generalizing j with
  | here fields =>
    rw [List.length_nil] at hle
    omega
  | @item fields name items position inner path last hlist hitem hown _ ih =>
    rw [List.length_cons] at hle
    rcases Nat.eq_or_lt_of_le hj with rfl | hlt
    · -- The outermost object on the way.
      exact ⟨inner, .item hlist rfl hitem (.here inner), hown⟩
    · -- An object further in, seen from the item.
      obtain ⟨k, rfl⟩ : ∃ k, j = k + 1 := ⟨j - 1, by omega⟩
      obtain ⟨deep, hdeep, hvalue⟩ := @ih k (by omega) (by omega)
      exact ⟨deep, .item hlist rfl hitem hdeep, hvalue⟩

end Json

/-- Each list on the way is one for which the schema has a node with a chain. -/
def Schema.ChainsAlong (s : Schema) (names : List String) : Prop :=
  ∀ before, before <+: names → before ≠ [] → ∃ node, s.nested? before = some node ∧ node.HasChain

/-- A visible object is accepted when the schema has a chain for each list on the way. -/
theorem accepts_of_visible (hr : (Json.ofRecord r).Ordered) (h : r.flatten = .ok f)
    (hw : Json.Within Json.isExpanded r.entries path element)
    (hvisible : Json.Visible r.entries path element) (hchains : s.ChainsAlong path.names) :
    s.Accepts f.keys path := by
  intro j hj hle
  have hlength : (path.take j).length = j := by
    rw [List.length_take]
    omega
  constructor
  · -- A beginning of the way that is not empty has names, so the schema has a chain there.
    refine hchains _ ((List.take_prefix j path).map Prod.fst) fun hnil => ?_
    rw [← hlength, List.map_eq_nil_iff.1 hnil, List.length_nil] at hj
    omega
  · -- The value that is not an expanded list is an entry directly in the object.
    obtain ⟨inner, hinner⟩ := hw.exists_take j
    obtain ⟨inner', hinner', ⟨name, v⟩, hmem, hv⟩ := hvisible.exists_take hj hle
    cases hinner.eq_of_ordered hr hinner'
    have hget := (Record.get?_flatten_iff hr h).2 ⟨inner, hinner, hmem, hv⟩
    refine ⟨_, SortedMap.mem_keys_of_get? hget, ?_⟩
    have hbegins := (@ItemPath.startsWith_key_iff (path.take j) (path.take j) name).2 rfl
    rw [hlength] at hbegins
    exact hbegins

/-- An entry that is a list under a name that leads on in the schema is misplaced. -/
theorem route_eq_misplaced (hs : s.Distinct) (h : r.flatten = .ok f) {name : String}
    {rest : List String} {items : List Json} (hitems : items ≠ [])
    (hnode : s.nested? (path.names ++ name :: rest) = some node) (hchain : node.HasChain) :
    (Expansion.of s f).route (path.key.field name) (.arr items) = .misplaced := by
  -- No chain is at the key: a leaf of that name would be the field that holds the further schemas.
  have hfull : (Expansion.of s f).full.contains (path.key.field name) = false := by
    rw [SortedMap.contains_eq_false_iff, Option.eq_none_iff_forall_ne_some]
    intro c hc
    rw [Schema.nested?_append, Option.bind_eq_some_iff] at hnode
    obtain ⟨outer, houter, hnode⟩ := hnode
    obtain ⟨inner, hchild, -⟩ := Schema.nested?_cons_eq_some_iff.1 hnode
    have hdistinct := hs.nested houter
    have hsub := (Schema.child?_eq_some_iff hdistinct).1 hchild
    obtain ⟨-, node', hnode', hleaf⟩ := (Expansion.get?_full_field_iff hs h).1 hc
    rw [houter] at hnode'
    cases hnode'
    rw [hdistinct.get?_eq_some_iff.2 hsub] at hleaf
    cases hleaf
  -- The template has a longer key, since the names lead further to a node with a chain.
  have hleads : (Expansion.of s f).template.leadsOn (path.key.field name).shape = true := by
    rw [ItemPath.shape_key_field]
    refine Schema.leadsOn_under hs hnode hchain ⟨rest, ?_⟩
    rw [List.append_assoc, List.singleton_append]
  have hlist : (Json.arr items).isEmptyList = false := by
    cases items with
    | nil => exact absurd rfl hitems
    | cons item rest => rfl
  rw [Expansion.route_field, hfull, hleads, hlist]
  rfl

/-- In a record that can be filled up to the schema, all lists on the way to an object in a list that the
schema describes are expanded. -/
theorem within_isExpanded (hs : s.Distinct) (hr : (Json.ofRecord r).Ordered) (h : r.flatten = .ok f)
    (ha : (Expansion.of s f).complete f = .ok a) (hnode : s.nested? path.names = some node)
    (hchain : node.HasChain) (hw : Json.Within (fun _ => true) r.entries path element) :
    Json.Within Json.isExpanded r.entries path element := by
  obtain ⟨routed, hrun, -⟩ := Expansion.get?_complete ha
  -- The induction is on the rest of the way; `outer` is the part that leads through expanded lists.
  have hrest : ∀ {fields rest last}, Json.Within (fun _ => true) fields rest last → ∀ outer : ItemPath,
      s.nested? (outer.names ++ ItemPath.names rest) = some node →
      Json.Within Json.isExpanded r.entries outer fields →
      Json.Within Json.isExpanded fields rest last := by
    intro fields rest last hw
    induction hw with
    | here fields => exact fun _ _ _ => .here fields
    | @item fields name items position inner tail last hlist _ hitem _ ih =>
      intro outer hnames houter
      have hexp : Json.isExpanded items = true := by
        cases hexp : Json.isExpanded items with
        | true => rfl
        | false =>
          -- The list has the item on the way in it, and a list that is not expanded is misplaced.
          have hitems : items ≠ [] := by
            rintro rfl
            cases hitem
          have hget := (Record.get?_flatten_iff hr h).2 ⟨fields, houter, hlist, hexp⟩
          have hroute := route_eq_misplaced hs h hitems hnames hchain
          exact absurd hroute (Expansion.route_ne_misplaced hrun hget)
      have hinner : Json.Within Json.isExpanded r.entries (outer ++ [(name, position)]) inner :=
        houter.append (.item hlist hexp hitem (.here inner))
      refine .item hlist hexp hitem (ih (outer ++ [(name, position)]) ?_ hinner)
      unfold ItemPath.names
      rw [List.map_append, List.append_assoc]
      exact hnames
  exact hrest hw [] hnode (.here _)

/-! ## The check -/

/-- The chains that run on a node before its field `g` has its turn, those of other nodes left out, move
no extras. -/
structure Schema.KeepsUntil (node : Schema) (g : String) : Prop where
  /-- The chain before the main phase. -/
  before : ∀ chain, node.before = some chain → chain.OfRules (· ≠ .keepExtras)
  /-- The chains of the fields that come earlier. -/
  leaf : ∀ name chain, name < g → node.get? name = some (.leaf chain) → chain.OfRules (· ≠ .keepExtras)

/-- The chains of an object that have their turn before one of its fields move no extras. -/
theorem Schema.KeepsUntil.ofRules (hkeeps : node.KeepsUntil g) (hs : s.Distinct)
    (h : r.flatten = .ok f) (hnode : s.nested? path.names = some node) {turn : Key × Chain}
    (hget : (Expansion.of s f).full.get? turn.1 = some turn.2)
    (hearlier : turn.1.control? = some .before ∨
      (turn.1.control? = none ∧ compare turn.1 (path.key.field g) = .lt))
    (hparent : turn.1.parent = path.key) : turn.2.OfRules (· ≠ .keepExtras) := by
  obtain ⟨k, c⟩ := turn
  rcases (Expansion.get?_full_iff hs h).1 hget with ⟨q, n, -, hn, hmem⟩ | ⟨rfl, -⟩
  · have hq : q.key = path.key := (Schema.parent_of_mem_ownEntries hmem).symm.trans hparent
    cases ItemPath.segments_injective (congrArg Key.segments hq)
    rw [hnode] at hn
    cases hn
    -- A chain of the object itself: a leaf before the field, or the slot that has its turn first.
    rcases Schema.mem_ownEntries_iff.1 hmem with ⟨name, hleaf, rfl⟩ | ⟨slot, -, hc, rfl⟩
    · rcases hearlier with hbefore | ⟨-, hlt⟩
      · rw [Key.control?_field] at hbefore
        cases hbefore
      · exact hkeeps.leaf name c (Key.compare_field_eq_lt_iff.1 hlt)
          ((hs.nested hnode).get?_eq_some_iff.2 hleaf)
    · rcases hearlier with hbefore | ⟨hmain, -⟩
      · rw [Key.control?_slot, Option.some.injEq] at hbefore
        rw [hbefore] at hc
        exact hkeeps.before c hc
      · rw [Key.control?_slot] at hmain
        cases hmain
  · -- The junk chain has its turn after all fields.
    rcases hearlier with hbefore | ⟨hmain, -⟩
    · rw [Key.control?_slot] at hbefore
      cases hbefore
    · rw [Key.control?_slot] at hmain
      cases hmain

/-- A chain that has its turn before a field of an accepted object leaves the value of the field. -/
theorem get?_run_earlier (hs : s.Distinct) (hlib : s.AllChains (Chain.OfRules fun _ => True))
    (h : r.flatten = .ok f) (hnode : s.nested? path.names = some node) (hkeeps : node.KeepsUntil g)
    {turn : Key × Chain} (hget : (Expansion.of s f).full.get? turn.1 = some turn.2)
    (hearlier : turn.1.control? = some .before ∨
      (turn.1.control? = none ∧ compare turn.1 (path.key.field g) = .lt))
    {w : Work} {d : Datum} (hw : w.data.get? (path.key.field g) = some d) :
    (turn.2.run turn.1 w).data.get? (path.key.field g) = some d := by
  -- The field does not come before itself.
  have hne : path.key.field g ≠ turn.1 := by
    intro he
    rw [← he] at hearlier
    rcases hearlier with hbefore | ⟨-, hlt⟩
    · rw [Key.control?_field] at hbefore
      cases hbefore
    · exact Ascending.ne_of_lt hlt rfl
  -- One rule of an earlier chain keeps the value, unless it moves extras to this very object.
  have hrule : ∀ rule : Rule, (rule = .keepExtras → turn.1.parent ≠ path.key) → ∀ w : Work,
      w.data.get? (path.key.field g) = some d →
      (rule.validator.apply turn.1 w).1.data.get? (path.key.field g) = some d := by
    intro rule hkeep w hw
    have hcontains : w.data.contains (path.key.field g) = true := SortedMap.contains_iff.2 ⟨d, hw⟩
    have hnot : ¬ rule.Writes turn.1 w.data (path.key.field g) := by
      refine Rule.not_writes_of_contains hcontains hne fun he => ?_
      rw [Key.parent_field]
      exact (hkeep he).symm
    rw [(rule.effect_apply turn.1 w).data _ hnot]
    exact hw
  by_cases hparent : turn.1.parent = path.key
  · -- A chain of the same object moves no extras.
    have hrules := hkeeps.ofRules hs h hnode hget hearlier hparent
    exact hrules.run_invariant (P := fun w => w.data.get? (path.key.field g) = some d)
      (fun rule hkeep => hrule rule fun he => absurd he hkeep) hw
  · -- A chain elsewhere may, but not to this object.
    have hrules : turn.2.OfRules fun _ => True := Expansion.of_get?_full hlib hget
    exact hrules.run_invariant (P := fun w => w.data.get? (path.key.field g) = some d)
      (fun rule _ => hrule rule fun _ => hparent) hw

/-- The chains that have their turns before a field of an accepted object leave the value of the
field. -/
theorem get?_runChains_earlier (hs : s.Distinct) (hlib : s.AllChains (Chain.OfRules fun _ => True))
    (h : r.flatten = .ok f) (hnode : s.nested? path.names = some node) (hkeeps : node.KeepsUntil g)
    {turns : List (Key × Chain)}
    (hturns : ∀ turn ∈ turns, (Expansion.of s f).full.get? turn.1 = some turn.2 ∧
      (turn.1.control? = some .before ∨
        (turn.1.control? = none ∧ compare turn.1 (path.key.field g) = .lt)))
    {w : Work} {d : Datum} (hw : w.data.get? (path.key.field g) = some d) :
    (runChains turns w).data.get? (path.key.field g) = some d := by
  refine runChains_invariant (P := fun w => w.data.get? (path.key.field g) = some d) ?_ hw
  intro turn hturn w hw
  obtain ⟨hget, hearlier⟩ := hturns turn hturn
  exact get?_run_earlier hs hlib h hnode hkeeps hget hearlier hw

/-- A required field that is not filled in when it has its turn is reported. -/
theorem get?_messages_run_required {key : Key} {w : Work} (hempty : (w.datum key).isEmpty = true) :
    (Chain.run key (Rule.notEmpty.validator :: chain) w).messages.get? key =
      some ((w.messages.get? key).getD [] ++ [Complaint.missing.message]) := by
  have happly : Rule.notEmpty.validator.apply key w =
      (w.report key Complaint.missing.message, true) := by
    show Validator.settle key (Presence.notEmpty key w).1 (Presence.notEmpty key w).2 = _
    unfold Presence.notEmpty
    rw [if_pos hempty]
    rfl
  rw [Chain.run_cons, happly, if_pos rfl, Work.get?_report, if_pos rfl]

/-- When a run leaves no messages, the required fields of accepted objects are filled in. -/
theorem exists_get?_of_valid (hs : s.Distinct) (hlib : s.AllChains (Chain.OfRules fun _ => True))
    (h : r.flatten = .ok f) (hpath : s.Accepts f.keys path) (hnode : s.nested? path.names = some node)
    (hg : node.get? g = some (.leaf (Rule.notEmpty.validator :: chain))) (hkeeps : node.KeepsUntil g)
    {context : Context} {w : Work} (hw : validateFlat f s context = .ok w)
    (hvalid : w.messages.fieldErrors.isEmpty = true) :
    ∃ v, f.get? (path.key.field g) = some v ∧ (Datum.value v).isEmpty = false := by
  obtain ⟨a, ha, rfl⟩ := validateFlat_eq_ok_iff.1 hw
  have hfull := (Expansion.get?_full_field_iff hs h).2 ⟨hpath, node, hnode, hg⟩
  have hcontrol : (path.key.field g).control? = none := Key.control?_field
  have hstart := Expansion.get?_complete_leaf (fieldKeys_of_flatten h) ha
    (SortedMap.contains_iff.2 ⟨_, hfull⟩) hcontrol
  obtain ⟨earlier, later, hschedule, hearlier⟩ := exists_schedule_eq_append hfull hcontrol
  have hlater : ∀ turn ∈ later, turn.2.OfRules fun _ => True := by
    intro turn hturn
    have hmem : turn ∈ schedule (Expansion.of s f).full := by
      rw [hschedule]
      exact List.mem_append_right _ (List.mem_cons_of_mem _ hturn)
    exact Expansion.of_get?_full hlib (get?_of_mem_schedule hmem)
  rw [hschedule, runChains_append] at hvalid
  generalize hw₁ : runChains earlier (startWork (Expansion.of s f) a context) = w₁ at hvalid
  -- At its turn the field has the value that the record has for it.
  have hvalue : w₁.data.get? (path.key.field g) =
      some ((f.get? (path.key.field g)).elim .missing .value) := by
    rw [← hw₁]
    exact get?_runChains_earlier hs hlib h hnode hkeeps hearlier hstart
  have hfilled : ((f.get? (path.key.field g)).elim Datum.missing Datum.value).isEmpty = false := by
    refine Bool.eq_false_iff.2 fun hempty => ?_
    have hdatum : (w₁.datum (path.key.field g)).isEmpty = true := by
      unfold Work.datum
      rw [hvalue]
      exact hempty
    -- Otherwise the field is reported, and the message is still there at the end.
    obtain ⟨more, hmore⟩ := extends_runChains hlater _ _ _
      (@get?_messages_run_required chain (path.key.field g) w₁ hdatum)
    have hnil := eq_nil_of_isEmpty_fieldErrors hvalid hmore
    rw [List.append_assoc] at hnil
    exact absurd (List.append_eq_nil_iff.1 hnil).2 (List.cons_ne_nil _ _)
  cases hv : f.get? (path.key.field g) with
  | none =>
    rw [hv] at hfilled
    cases hfilled
  | some v =>
    rw [hv] at hfilled
    exact ⟨v, rfl, hfilled⟩

/-- A required field cannot be left out of a visible object: in a valid outcome every visible object at
the place of a node has the node's required fields filled in, if the schema has a chain for each list on
the way and no chain of the node that runs earlier moves extras. -/
theorem required_field_filled (hs : s.Distinct) (hlib : s.AllChains (Chain.OfRules fun _ => True))
    (hr : (Json.ofRecord r).Ordered) {context : Context} {o : Outcome}
    (ho : validate r s context = .ok o) (hvalid : o.isValid = true)
    (hnode : s.nested? path.names = some node) (hchains : s.ChainsAlong path.names)
    (hg : node.get? g = some (.leaf (Rule.notEmpty.validator :: chain))) (hkeeps : node.KeepsUntil g)
    (helement : Json.Visible r.entries path element) :
    ∃ v, (g, v) ∈ element ∧ (Datum.value v).isEmpty = false := by
  obtain ⟨f, w, h, hrun, rfl⟩ := validate_eq_ok_iff.1 ho
  obtain ⟨a, ha, -⟩ := validateFlat_eq_ok_iff.1 hrun
  have hexp := within_isExpanded hs hr h ha hnode (.inl ⟨g, _, hg⟩) helement.within
  have hpath := accepts_of_visible hr h hexp helement hchains
  obtain ⟨v, hv, hfilled⟩ := exists_get?_of_valid hs hlib h hpath hnode hg hkeeps hrun hvalid
  obtain ⟨inner, hinner, hmem, -⟩ := (Record.get?_flatten_iff hr h).1 hv
  cases hinner.eq_of_ordered hr hexp
  exact ⟨v, hmem, hfilled⟩

/-- A required field without further rules. -/
def Node.required : Node := .leaf [Rule.notEmpty.validator]

/-- A field without rules. -/
def Node.free : Node := .leaf []

/-- The objects in a list in a list, with a required field. -/
def numbered : Schema where
  fields := [("alias", .free), ("code", .required)]
  before := some [Rule.ignoreMissing.validator]

/-- A schema with a field in the objects around them. -/
def grouped : Schema := .ofList "groups" { fields := [("numbers", .sub numbered), ("title", .free)] }

/-- A record for it that is filled in. -/
def groupedRecord : Record :=
  .ofList "groups" [[("numbers", .arr [.obj [("code", .str "x")]]), ("title", .str "t")]]

/-- Both lists on the way to a number have nodes with chains. -/
theorem chainsAlong_grouped :
    grouped.ChainsAlong (ItemPath.names [("groups", 0), ("numbers", 0)]) := by
  intro before hbefore hne
  have hgroups : Schema.HasChain { fields := [("numbers", .sub numbered), ("title", .free)] } :=
    .inl ⟨"title", [], rfl⟩
  rcases List.prefix_cons_iff.1 hbefore with rfl | ⟨rest, rfl, hrest⟩
  · exact absurd rfl hne
  · rcases List.prefix_cons_iff.1 hrest with rfl | ⟨rest, rfl, hlast⟩
    · exact ⟨_, rfl, hgroups⟩
    · cases List.prefix_nil.1 hlast
      exact ⟨_, rfl, .inl ⟨"alias", [], rfl⟩⟩

/-- No chain of a number that has its turn before its code moves extras. -/
theorem keepsUntil_numbered : numbered.KeepsUntil "code" where
  before := by
    rintro chain ⟨⟩
    exact ⟨[.ignoreMissing], rfl, by simp⟩
  leaf := by
    intro name chain hlt hget
    have hmem : (name, Node.leaf chain) ∈ numbered.fields := Listed.mem_of_get? hget
    rcases List.mem_cons.1 hmem with he | hmem
    · cases he
      exact ⟨[], rfl, nofun⟩
    · cases List.mem_singleton.1 hmem
      exact absurd hlt (by decide)

/-- The code of the number in the first group is there, as the record is valid. -/
theorem required_field_filled_grouped :
    grouped.Distinct ∧ grouped.AllChains (Chain.OfRules fun _ => True) ∧
    (Json.ofRecord groupedRecord).Ordered ∧
    grouped.nested? (ItemPath.names [("groups", 0), ("numbers", 0)]) = some numbered ∧
    grouped.ChainsAlong (ItemPath.names [("groups", 0), ("numbers", 0)]) ∧
    numbered.get? "code" = some (.leaf [Rule.notEmpty.validator]) ∧ numbered.KeepsUntil "code" ∧
    Json.Visible groupedRecord.entries [("groups", 0), ("numbers", 0)] [("code", .str "x")] ∧
    ∃ o, validate groupedRecord grouped {} = .ok o ∧ o.isValid = true ∧
      ∃ v, ("code", v) ∈ [("code", Json.str "x")] ∧ (Datum.value v).isEmpty = false := by
  have hs : grouped.Distinct := by decide
  have hlib : grouped.AllChains (Chain.OfRules fun _ => True) := by
    have hfree := Chain.ofRules_map []
    refine ⟨⟨⟨⟨⟨⟨hfree, Chain.ofRules_map [.notEmpty], trivial⟩, fun slot chain hchain => ?_⟩, hfree,
      trivial⟩, nofun⟩, trivial⟩, nofun⟩
    cases slot with
    | before =>
      cases hchain
      exact Chain.ofRules_map [.ignoreMissing]
    | _ => cases hchain
  have hvisible : Json.Visible groupedRecord.entries [("groups", 0), ("numbers", 0)]
      [("code", .str "x")] :=
    .item List.mem_cons_self rfl ⟨("title", .str "t"), by simp, rfl⟩
      (.item List.mem_cons_self rfl ⟨("code", .str "x"), by simp, rfl⟩ (.here _))
  obtain ⟨o, ho, hvalid⟩ : ∃ o, validate groupedRecord grouped {} = .ok o ∧ o.isValid = true :=
    ⟨_, rfl, rfl⟩
  have hr : (Json.ofRecord groupedRecord).Ordered := by decide
  exact ⟨hs, hlib, hr, rfl, chainsAlong_grouped, rfl, keepsUntil_numbered, hvisible, o, ho, hvalid,
    required_field_filled hs hlib hr ho hvalid rfl chainsAlong_grouped rfl keepsUntil_numbered
      hvisible⟩

/-! ## Objects that escape the check -/

/-- A chain that supplies a field `code` to the object of its slot. -/
def codeSupplied : Chain :=
  [(Rule.default (.obj [("code", .str "x")])).validator, Rule.keepExtras.validator]

/-- The record has a valid outcome although the object at the end of the path lacks the field `g`, which
is required there by a schema built from rules of the library. -/
structure Bypasses (s : Schema) (r : Record) (path : ItemPath) (g : String) : Prop where
  /-- The fields of the schema have different names. -/
  distinct : s.Distinct
  /-- The schema is built from rules of the library. -/
  library : s.AllChains (Chain.OfRules fun _ => True)
  /-- The objects of the record list their names in order. -/
  ordered : (Json.ofRecord r).Ordered
  /-- The field is required. -/
  required : ∃ node chain, s.nested? path.names = some node ∧
    node.get? g = some (.leaf (Rule.notEmpty.validator :: chain))
  /-- The outcome is valid. -/
  valid : ∃ o, validate r s {} = .ok o ∧ o.isValid = true
  /-- The object lacks the field. -/
  lacks : ∃ element, Json.Within (fun _ => true) r.entries path element ∧ ∀ v, (g, v) ∉ element

/-- A required field can be left out of an object without values, of one that holds a list only, and of
one in such an object; of an object in a list inside a list for which the schema has no chain; and of an
object to which an earlier chain moves the field from another one or from a default. -/
theorem required_field_bypassed :
    Bypasses (.ofList "numbers" { fields := [("code", .required)] })
      (.ofList "numbers" [[("code", .str "x")], []]) [("numbers", 1)] "code" ∧
    Bypasses (.ofList "numbers" { fields := [("code", .required)] })
      (.ofList "numbers" [[("parts", .arr [.obj [("part", .int 1)]])]]) [("numbers", 0)] "code" ∧
    Bypasses (.ofList "groups" { fields := [("title", .free),
        ("numbers", .sub { fields := [("code", .required)] })] })
      (.ofList "groups" [[("numbers", .arr [.obj [("title", .str "t")]])]])
      [("groups", 0), ("numbers", 0)] "code" ∧
    Bypasses (.ofList "groups" (.ofList "numbers" { fields := [("code", .required)] }))
      (.ofList "groups" [[("numbers", .arr [.obj [("title", .str "t")]]), ("title", .str "u")]])
      [("groups", 0), ("numbers", 0)] "code" ∧
    Bypasses (.ofList "numbers" { fields := [("alias", .leaf [Rule.keepExtras.validator]),
        ("code", .required)] })
      (.ofList "numbers" [[("alias", .obj [("code", .str "x")])]]) [("numbers", 0)] "code" ∧
    Bypasses (.ofList "numbers" { fields := [("code", .required)], before := some codeSupplied })
      (.ofList "numbers" [[("title", .str "t")]]) [("numbers", 0)] "code" := by
  -- A required field and a free one: chains of the library both.
  have hrequired := Chain.ofRules_map [.notEmpty]
  have hfree := Chain.ofRules_map []
  refine ⟨?_, ?_, ?_, ?_, ?_, ?_⟩
  · -- An object with no values at all, beside one that has the code.
    exact {
      distinct := by decide
      library := ⟨⟨⟨⟨hrequired, trivial⟩, nofun⟩, trivial⟩, nofun⟩
      ordered := by decide
      required := ⟨_, _, rfl, rfl⟩
      valid := ⟨_, rfl, rfl⟩
      lacks := ⟨_, .item List.mem_cons_self rfl rfl (.here _), nofun⟩ }
  · -- An object that holds a list only, which the schema does not know.
    exact {
      distinct := by decide
      library := ⟨⟨⟨⟨hrequired, trivial⟩, nofun⟩, trivial⟩, nofun⟩
      ordered := by decide
      required := ⟨_, _, rfl, rfl⟩
      valid := ⟨_, rfl, rfl⟩
      lacks := ⟨_, .item List.mem_cons_self rfl rfl (.here _), by simp⟩ }
  · -- An object in a list of an object that holds nothing but that list.
    exact {
      distinct := by decide
      library := ⟨⟨⟨⟨hfree, ⟨⟨hrequired, trivial⟩, nofun⟩, trivial⟩, nofun⟩, trivial⟩, nofun⟩
      ordered := by decide
      required := ⟨_, _, rfl, rfl⟩
      valid := ⟨_, rfl, rfl⟩
      lacks := ⟨_, .item List.mem_cons_self rfl rfl
        (.item List.mem_cons_self rfl rfl (.here _)), by simp⟩ }
  · -- The groups of this schema have no leaf and so no chain, though the object has a title.
    exact {
      distinct := by decide
      library := ⟨⟨⟨⟨⟨⟨hrequired, trivial⟩, nofun⟩, trivial⟩, nofun⟩, trivial⟩, nofun⟩
      ordered := by decide
      required := ⟨_, _, rfl, rfl⟩
      valid := ⟨_, rfl, rfl⟩
      lacks := ⟨_, .item List.mem_cons_self rfl rfl
        (.item List.mem_cons_self rfl rfl (.here _)), by simp⟩ }
  · -- The field before the code moves the code out of its own value.
    exact {
      distinct := by decide
      library := ⟨⟨⟨⟨Chain.ofRules_map [.keepExtras], hrequired, trivial⟩, nofun⟩, trivial⟩, nofun⟩
      ordered := by decide
      required := ⟨_, _, rfl, rfl⟩
      valid := ⟨_, rfl, rfl⟩
      lacks := ⟨_, .item List.mem_cons_self rfl rfl (.here _), by simp⟩ }
  · -- The chain that runs first supplies an object with the code and moves it.
    exact {
      distinct := by decide
      library := by
        refine ⟨⟨⟨⟨hrequired, trivial⟩, fun slot chain hchain => ?_⟩, trivial⟩, nofun⟩
        cases slot with
        | before =>
          cases hchain
          exact Chain.ofRules_map [.default (.obj [("code", .str "x")]), .keepExtras]
        | _ => cases hchain
      ordered := by decide
      required := ⟨_, _, rfl, rfl⟩
      valid := ⟨_, rfl, rfl⟩
      lacks := ⟨_, .item List.mem_cons_self rfl rfl (.here _), by simp⟩ }

end FlatRecord
