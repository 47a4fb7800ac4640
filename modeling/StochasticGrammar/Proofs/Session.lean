import StochasticGrammar.Proofs.CompileAtomic
import Mathlib.Data.List.Induction

namespace StochasticGrammar

variable {α : Type}

inductive Step (α : Type) where
  | terminal (name : String) (value : α)
  | compile (name text : String)
deriving DecidableEq

/-- What a name stands for: a value, or whatever a text means. -/
inductive RuleSource (α : Type) where
  | value (value : α)
  | text (text : String)
deriving DecidableEq

/-- The definitions of names, the latest first. -/
abbrev Table (α : Type) := List (String × RuleSource α)

/-- A name without a definition stands for its own text. -/
def Table.latest (table : Table α) (name : String) : RuleSource α :=
  (table.lookup name).getD (.text name)

theorem Table.latest_of_lookup_eq_none {table : Table α} {name : String}
    (h : table.lookup name = none) : table.latest name = .text name := by
  unfold latest
  rw [h]
  rfl

theorem Table.latest_cons (table : Table α) (first : String) (source : RuleSource α)
    (name : String) :
    Table.latest ((first, source) :: table) name =
      if name = first then source else table.latest name := by
  unfold latest
  by_cases hname : name = first
  · subst hname
    simp
  · simp [lookup_cons_of_ne hname, hname]

namespace Step

def name : Step α → String
  | terminal name _ => name
  | compile name _ => name

def source : Step α → RuleSource α
  | terminal _ value => .value value
  | compile _ text => .text text

/-- A name that is compiled from itself keeps its meaning. -/
def KeepsMeaning : Step α → Prop
  | terminal _ _ => False
  | compile name text => text = name ∧ Rule.read text = .ok (.bare name)

instance : (step : Step α) → Decidable step.KeepsMeaning
  | terminal _ _ => inferInstanceAs (Decidable False)
  | compile name text =>
    inferInstanceAs (Decidable (text = name ∧ Rule.read text = .ok (.bare name)))

def record (table : Table α) (step : Step α) : Table α :=
  if step.KeepsMeaning then table else (step.name, step.source) :: table

/-- Whether a step succeeds, and the grammar after it. -/
def run (grammar : Grammar α) : Step α → Bool × Grammar α
  | terminal name value => (true, grammar.registerTerminal name value)
  | compile name text => ((grammar.compile name text).1.isOk, (grammar.compile name text).2)

end Step

/-- A grammar with the definitions that it was given. -/
structure Session (α : Type) where
  grammar : Grammar α
  table : Table α

namespace Session

def registry (session : Session α) : Registry α := session.grammar.registry

def start (policy : LiteralPolicy α) (settings : Settings) (entropy : Twister) : Session α :=
  ⟨.new policy settings entropy, []⟩

def accepts (session : Session α) (step : Step α) : Bool := (step.run session.grammar).1

/-- The session after one more step; a step that fails defines nothing. -/
def perform (session : Session α) (step : Step α) : Session α where
  grammar := (step.run session.grammar).2
  table := if session.accepts step then step.record session.table else session.table

def after (policy : LiteralPolicy α) (settings : Settings) (entropy : Twister)
    (steps : List (Step α)) : Session α :=
  steps.foldl perform (start policy settings entropy)

theorem after_concat (policy : LiteralPolicy α) (settings : Settings) (entropy : Twister)
    (earlier : List (Step α)) (step : Step α) :
    after policy settings entropy (earlier ++ [step]) =
      (after policy settings entropy earlier).perform step := by
  unfold after
  rw [List.foldl_append]
  rfl

end Session

/-- What a step that succeeds does: it grows the registry, and then gives its name a node. -/
inductive Defines (policy : LiteralPolicy α) (registry : Registry α) :
    Step α → Registry α → Prop
  | terminal {name : String} {value : α} :
      Defines policy registry (.terminal name value) (registry.define name (.leaf value)).2
  | compile {name text : String} {id : NodeId} {after : Registry α} :
      Built policy registry name text id after → Defines policy registry (.compile name text) after

/-- A definition ends with a registration of its name, in a registry that has only grown by then. -/
theorem Defines.exists_install {policy : LiteralPolicy α} {registry later : Registry α}
    {step : Step α} (h : Defines policy registry step later) :
    ∃ (bound : Nat) (grown base : Registry α) (id : NodeId), Grows policy bound registry grown ∧
      (∀ name, base.find? name = grown.find? name) ∧ later = base.install step.name id := by
  cases h with
  | @terminal name value =>
    exact ⟨0, registry, (registry.add (.leaf value)).2, _, .refl, fun _ => rfl, rfl⟩
  | compile hbuilt =>
    cases hbuilt with
    | bare _ hgrows _ => exact ⟨_, _, _, _, hgrows, fun _ => rfl, rfl⟩
    | @composite shape found grown _ hgrows _ =>
      exact ⟨_, grown, (grown.add (.composite found)).2, _, hgrows, fun _ => rfl, rfl⟩

namespace Grammar

theorem policy_compile (grammar : Grammar α) (name text : String) :
    (grammar.compile name text).2.policy = grammar.policy := by
  unfold compile
  split <;> rfl

theorem settings_compile (grammar : Grammar α) (name text : String) :
    (grammar.compile name text).2.settings = grammar.settings := by
  unfold compile
  split <;> rfl

end Grammar

namespace Session

theorem policy_perform (session : Session α) (step : Step α) :
    (session.perform step).grammar.policy = session.grammar.policy := by
  cases step with
  | terminal name value => rfl
  | compile name text => exact session.grammar.policy_compile name text

theorem settings_perform (session : Session α) (step : Step α) :
    (session.perform step).grammar.settings = session.grammar.settings := by
  cases step with
  | terminal name value => rfl
  | compile name text => exact session.grammar.settings_compile name text

theorem policy_settings_after (policy : LiteralPolicy α) (settings : Settings) (entropy : Twister)
    (steps : List (Step α)) :
    (after policy settings entropy steps).grammar.policy = policy ∧
      (after policy settings entropy steps).grammar.settings = settings := by
  induction steps using List.reverseRecOn with
  | nil => exact ⟨rfl, rfl⟩
  | append_singleton earlier step ih =>
    rw [after_concat, policy_perform, settings_perform]
    exact ih

theorem defines_of_accepts {session : Session α} {step : Step α} (h : session.accepts step = true) :
    Defines session.grammar.policy session.registry step (session.perform step).registry := by
  cases step with
  | terminal name value => exact .terminal
  | compile name text =>
    cases hcompile : session.grammar.compile name text with
    | mk result after =>
      cases result with
      | error reason => simp [accepts, Step.run, hcompile, Except.isOk, Except.toBool] at h
      | ok compilation =>
        obtain ⟨id, hbuilt⟩ := Grammar.compile_eq_ok hcompile
        have hafter : (session.perform (.compile name text)).grammar = after := by
          simp [perform, Step.run, hcompile]
        unfold registry
        rw [hafter]
        exact .compile hbuilt

/-- A step that fails leaves at most new names, and none if the policy goes by the text. -/
theorem grows_of_not_accepts {session : Session α} {step : Step α}
    (h : ¬session.accepts step = true) :
    (∃ bound, Grows session.grammar.policy bound session.registry
        (session.perform step).registry) ∧
      (session.grammar.policy.DependsOnText →
        (session.perform step).registry = session.registry) := by
  cases step with
  | terminal name value => exact absurd rfl h
  | compile name text =>
    cases hcompile : session.grammar.compile name text with
    | mk result after =>
      have hafter : (session.perform (.compile name text)).grammar = after := by
        simp [perform, Step.run, hcompile]
      unfold registry
      rw [hafter]
      cases result with
      | ok compilation => simp [accepts, Step.run, hcompile, Except.isOk, Except.toBool] at h
      | error reason =>
        rcases Grammar.compile_eq_error hcompile with hsame | ⟨htakes, hgrows⟩
        · rw [hsame]
          exact ⟨⟨0, .refl⟩, fun _ => rfl⟩
        · exact ⟨⟨_, hgrows⟩, fun htext => absurd htakes htext.not_takesBack⟩

/-- A step gives a name a new meaning. -/
def Redefines (session : Session α) (step : Step α) (name : String) : Prop :=
  session.accepts step = true ∧ step.name = name ∧ ¬step.KeepsMeaning

instance (session : Session α) (step : Step α) (name : String) :
    Decidable (session.Redefines step name) :=
  inferInstanceAs (Decidable (session.accepts step = true ∧ step.name = name ∧ ¬step.KeepsMeaning))

theorem grows_of_keepsMeaning {policy : LiteralPolicy α} {registry after : Registry α}
    {step : Step α} (h : Defines policy registry step after) (hkeeps : step.KeepsMeaning) :
    ∃ bound, Grows policy bound registry after := by
  cases h with
  | terminal => exact absurd hkeeps id
  | compile hbuilt =>
    obtain ⟨rfl, hread⟩ := hkeeps
    cases hbuilt with
    | bare _ hgrows hfound =>
      rw [Registry.graph_install_of_eq hfound]
      exact ⟨_, hgrows⟩
    | composite hcomposite _ _ =>
      rw [hread] at hcomposite
      cases hcomposite

/-- Every step either gives its name a new meaning, or it leaves the table as it is and at most
registers new names. -/
theorem perform_cases (session : Session α) (step : Step α) :
    (session.Redefines step step.name ∧
        (session.perform step).table = (step.name, step.source) :: session.table ∧
        Defines session.grammar.policy session.registry step (session.perform step).registry) ∨
      ((∀ name, ¬session.Redefines step name) ∧ (session.perform step).table = session.table ∧
        ∃ bound, Grows session.grammar.policy bound session.registry
          (session.perform step).registry) := by
  by_cases haccepts : session.accepts step = true
  · have hdefines := defines_of_accepts haccepts
    have htable : (session.perform step).table = step.record session.table := if_pos haccepts
    rw [htable]
    by_cases hkeeps : step.KeepsMeaning
    · refine .inr ⟨fun _ h => h.2.2 hkeeps, if_pos hkeeps, grows_of_keepsMeaning hdefines hkeeps⟩
    · exact .inl ⟨⟨haccepts, rfl, hkeeps⟩, if_neg hkeeps, hdefines⟩
  · exact .inr ⟨fun _ h => haccepts h.1, if_neg haccepts, (grows_of_not_accepts haccepts).1⟩

/-- What holds of the registry without names and is kept by definitions and by new names holds in
every state of a session. -/
theorem registry_invariant {holds : Registry α → Prop} (hempty : holds .empty)
    (hdefines : ∀ {policy registry step later}, holds registry →
      Defines policy registry step later → holds later)
    (hgrows : ∀ {policy bound registry grown}, holds registry →
      Grows policy bound registry grown → holds grown)
    (policy : LiteralPolicy α) (settings : Settings) (entropy : Twister) (steps : List (Step α)) :
    holds (after policy settings entropy steps).registry := by
  induction steps using List.reverseRecOn with
  | nil => exact hempty
  | append_singleton earlier step ih =>
    rw [after_concat]
    rcases (after policy settings entropy earlier).perform_cases step with
      ⟨_, _, hstep⟩ | ⟨_, _, bound, hstep⟩
    · exact hdefines ih hstep
    · exact hgrows ih hstep

end Session

end StochasticGrammar
