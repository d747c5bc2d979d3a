import FlatRecord.Proofs.Validation.Run

/-!
# The course of a run

`Chain.applications` and `turnsTaken` write down which validators a run applies, to which keys, and
what each of them finds. What they write down is what the run does: every application finds what the
one before it leaves, and the last one leaves the result of the run (`Chain.leads_applications`,
`leads_turnsTaken`).

A turn follows its chain (`exists_follows_of_mem`): the validators are applied in their order to
the key of the turn, up to and including the first that stops.
-/

namespace FlatRecord

/-! ## Applications -/

/-- One application of a validator in a run. -/
structure Application where
  /-- The running key. -/
  key : Key
  /-- What is applied to it. -/
  validator : Validator
  /-- What the validator finds. -/
  before : Work

namespace Application

/-- What the validator leaves. -/
def after (app : Application) : Work := (app.validator.apply app.key app.before).1

/-- Whether the validator stops its chain. -/
def stops (app : Application) : Bool := (app.validator.apply app.key app.before).2

end Application

/-- The applications lead from one state to another: each finds what the one before it leaves. -/
def Leads : Work → List Application → Work → Prop
  | w, [], w' => w' = w
  | w, app :: rest, w' => app.before = w ∧ Leads app.after rest w'

section Leads

variable {w w' w'' : Work} {app : Application} {apps apps' : List Application}

/-- Two traces in a row lead as far as both together. -/
theorem Leads.append (h : Leads w apps w') (h' : Leads w' apps' w'') : Leads w (apps ++ apps') w'' := by
  induction apps generalizing w with
  | nil =>
    cases h
    exact h'
  | cons app rest ih => exact ⟨h.1, ih h.2⟩

/-- What holds at the start and is kept by each application holds in the end. -/
theorem Leads.invariant {P : Work → Prop} (h : Leads w apps w')
    (step : ∀ app ∈ apps, P app.before → P app.after) (hw : P w) : P w' := by
  induction apps generalizing w with
  | nil =>
    cases h
    exact hw
  | cons app rest ih =>
    obtain ⟨rfl, hrest⟩ := h
    have hafter : P app.after := step app List.mem_cons_self hw
    exact ih hrest (fun app' happ' => step app' (List.mem_cons_of_mem _ happ')) hafter

end Leads

/-! ## Chains -/

namespace Chain

variable {chain : Chain} {key : Key} {w : Work}

/-- The applications of the chain of a key. -/
def applications (key : Key) : Chain → Work → List Application
  | [], _ => []
  | v :: rest, w =>
    let app : Application := ⟨key, v, w⟩
    app :: if app.stops then [] else applications key rest app.after

/-- The applications of a chain are the first one and those that follow, unless it stops the chain. -/
theorem applications_cons (key : Key) (v : Validator) (rest : Chain) (w : Work) :
    applications key (v :: rest) w = ⟨key, v, w⟩ ::
      if (v.apply key w).2 then [] else rest.applications key (v.apply key w).1 := rfl

/-- The applications of a chain lead to the result of the chain. -/
theorem leads_applications (chain : Chain) (key : Key) (w : Work) :
    Leads w (chain.applications key w) (chain.run key w) := by
  induction chain generalizing w with
  | nil => rfl
  | cons v rest ih =>
    rw [applications_cons, run_cons]
    refine ⟨rfl, ?_⟩
    -- The first validator may stop the chain; otherwise the rest goes on from its result.
    by_cases hstop : (v.apply key w).2 = true
    · rw [if_pos hstop, if_pos hstop]
      rfl
    · rw [if_neg hstop, if_neg hstop]
      exact ih _

/-- The applications of a chain are to its key. -/
theorem key_of_mem_applications {app : Application} (h : app ∈ chain.applications key w) :
    app.key = key := by
  induction chain generalizing w with
  | nil => cases h
  | cons v rest ih =>
    rw [applications_cons] at h
    rcases List.mem_cons.1 h with rfl | h
    · rfl
    · split at h
      · cases h
      · exact ih h

end Chain

/-! ## Turns -/

/-- The turn of a key in a run. -/
structure Turn where
  /-- The key whose chain is started. -/
  key : Key
  /-- The applications of its validators, in order. -/
  applications : List Application

/-- The turn applies the validators of a chain to its key, in their order, up to and including the first
that stops. -/
structure Turn.Follows (turn : Turn) (chain : Chain) : Prop where
  /-- The key is that of the turn. -/
  key : ∀ app ∈ turn.applications, app.key = turn.key
  /-- The order is that of the chain. -/
  order : turn.applications.map (·.validator) <+: chain
  /-- No application but the last stops. -/
  proceeds : ∀ app ∈ turn.applications.dropLast, app.stops = false
  /-- The whole chain is applied unless the last application stops. -/
  complete : turn.applications.map (·.validator) = chain ∨
    ∃ app ∈ turn.applications.getLast?, app.stops = true

/-- A chain is followed by its applications. -/
theorem Chain.follows_applications (chain : Chain) (key : Key) (w : Work) :
    Turn.Follows ⟨key, chain.applications key w⟩ chain := by
  induction chain generalizing w with
  | nil => exact ⟨List.forall_mem_nil _, List.prefix_rfl, List.forall_mem_nil _, .inl rfl⟩
  | cons v rest ih =>
    have hkey : ∀ app ∈ applications key (v :: rest) w, app.key = key :=
      fun app happ => key_of_mem_applications happ
    by_cases hstop : (v.apply key w).2 = true
    · -- The first validator stops the chain: it is the only application, and the last.
      have happs : applications key (v :: rest) w = [⟨key, v, w⟩] := by
        rw [applications_cons, if_pos hstop]
      rw [happs] at hkey ⊢
      refine ⟨hkey, List.cons_prefix_cons.2 ⟨rfl, List.nil_prefix⟩, fun app happ => ?_,
        .inr ⟨⟨key, v, w⟩, rfl, hstop⟩⟩
      exact absurd happ List.not_mem_nil
    · -- The chain goes on, and its other applications are those of the rest.
      have happs : applications key (v :: rest) w =
          ⟨key, v, w⟩ :: applications key rest (v.apply key w).1 := by
        rw [applications_cons, if_neg hstop]
      rw [happs] at hkey ⊢
      have hrest := ih (v.apply key w).1
      generalize applications key rest (v.apply key w).1 = apps at hkey hrest ⊢
      refine ⟨hkey, List.cons_prefix_cons.2 ⟨rfl, hrest.order⟩, ?_, ?_⟩
      · -- The first application goes on, and those after it are the ones of the rest of the chain.
        intro app happ
        dsimp only at happ
        cases apps with
        | nil => exact absurd happ List.not_mem_nil
        | cons second apps =>
          rw [List.dropLast_cons_cons] at happ
          rcases List.mem_cons.1 happ with rfl | happ
          · exact Bool.eq_false_iff.2 hstop
          · exact hrest.proceeds app happ
      · -- The chain is complete when its rest is: all of it was applied, or the last application stopped it.
        rcases hrest.complete with hall | ⟨last, hlast, hstops⟩
        · exact .inl (congrArg (v :: ·) hall)
        · cases apps with
          | nil => cases hlast
          | cons app apps => exact .inr ⟨last, by rwa [List.getLast?_cons_cons], hstops⟩

/-- The turns of a run. -/
def turnsTaken : List (Key × Chain) → Work → List Turn
  | [], _ => []
  | turn :: rest, w =>
    ⟨turn.1, turn.2.applications turn.1 w⟩ :: turnsTaken rest (turn.2.run turn.1 w)

section Turns

variable {turns : List (Key × Chain)} {w : Work}

/-- The applications of the turns of a run lead to the result of the run. -/
theorem leads_turnsTaken (turns : List (Key × Chain)) (w : Work) :
    Leads w ((turnsTaken turns w).flatMap Turn.applications) (runChains turns w) := by
  induction turns generalizing w with
  | nil => rfl
  | cons turn rest ih => exact (turn.2.leads_applications turn.1 w).append (ih _)

/-- The keys that have a turn, in order. -/
theorem map_key_turnsTaken (turns : List (Key × Chain)) (w : Work) :
    (turnsTaken turns w).map Turn.key = turns.map (·.1) := by
  induction turns generalizing w with
  | nil => rfl
  | cons turn rest ih => exact congrArg (turn.1 :: ·) (ih _)

/-- The turn of a key follows the chain that the key was to run. -/
theorem exists_follows_of_mem {taken : Turn} (h : taken ∈ turnsTaken turns w) :
    ∃ chain, (taken.key, chain) ∈ turns ∧ taken.Follows chain := by
  induction turns generalizing w with
  | nil => cases h
  | cons turn rest ih =>
    rcases List.mem_cons.1 h with rfl | h
    · exact ⟨turn.2, List.mem_cons_self, turn.2.follows_applications turn.1 w⟩
    · obtain ⟨chain, hmem, hfollows⟩ := ih h
      exact ⟨chain, List.mem_cons_of_mem _ hmem, hfollows⟩

end Turns

/-! ## Validation -/

namespace Expansion

/-- The turns of a run over a completed record. -/
def turns (e : Expansion) (data : FlatData) (c : Context) : List Turn :=
  turnsTaken (schedule e.full) (startWork e data c)

/-- The applications of a run over a completed record, turn by turn. -/
def applications (e : Expansion) (data : FlatData) (c : Context) : List Application :=
  (e.turns data c).flatMap Turn.applications

/-- Every turn is that of a key with a chain, which it follows. -/
theorem exists_follows_of_mem_turns {e : Expansion} {data : FlatData} {c : Context} {turn : Turn}
    (h : turn ∈ e.turns data c) :
    ∃ chain, e.full.get? turn.key = some chain ∧ turn.Follows chain := by
  obtain ⟨chain, hmem, hfollows⟩ := exists_follows_of_mem h
  exact ⟨chain, get?_of_mem_schedule hmem, hfollows⟩

/-- Every application is that of a validator to a key which has the validator in its chain. -/
theorem exists_of_mem_applications {e : Expansion} {data : FlatData} {c : Context}
    {app : Application} (h : app ∈ e.applications data c) :
    ∃ chain, e.full.get? app.key = some chain ∧ app.validator ∈ chain := by
  obtain ⟨turn, hturn, happ⟩ := List.mem_flatMap.1 h
  obtain ⟨chain, hget, hfollows⟩ := exists_follows_of_mem_turns hturn
  rw [← hfollows.key app happ] at hget
  exact ⟨chain, hget, hfollows.order.subset (List.mem_map.2 ⟨app, happ, rfl⟩)⟩

end Expansion

end FlatRecord
