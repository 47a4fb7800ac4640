import StochasticGrammar.Grammar
import StochasticGrammar.Proofs.CheckedBuild
import Mathlib.Data.Prod.Basic

namespace StochasticGrammar

variable {α : Type}

instance decidableEqExcept {ε β : Type} [DecidableEq ε] [DecidableEq β] :
    DecidableEq (Except ε β)
  | .ok first, .ok second => decidable_of_iff (first = second) (by rw [Except.ok.injEq])
  | .error first, .error second => decidable_of_iff (first = second) (by rw [Except.error.injEq])
  | .ok _, .error _ => .isFalse nofun
  | .error _, .ok _ => .isFalse nofun

/-- The answers of a policy depend on the text alone. -/
def LiteralPolicy.DependsOnText (policy : LiteralPolicy α) : Prop :=
  ∀ asked asked' text, policy.answer asked text = policy.answer asked' text

/-- An answer that a policy took back. -/
def LiteralPolicy.TakesBack (policy : LiteralPolicy α) : Prop :=
  ∃ text asked asked' value, policy.answer asked text = some value ∧
    policy.answer asked' text = Option.none

theorem LiteralPolicy.DependsOnText.not_takesBack {policy : LiteralPolicy α}
    (h : policy.DependsOnText) : ¬policy.TakesBack := by
  rintro ⟨text, asked, asked', value, hsome, hnone⟩
  rw [h asked asked' text, hnone] at hsome
  cases hsome

/-- A build that fails after its check passed was let down by the policy. -/
theorem takesBack_of_build_error {policy : LiteralPolicy α} {limit : Nat} {name text : String}
    {rule : Rule} {plan : Plan} {space after : Workspace α} {reason : CompileError}
    (hread : Rule.read text = .ok rule)
    (hcheck : (check policy space.registry limit name rule).run ⟨[], space.asked⟩ = .ok () plan)
    (hbuild : (build policy limit name rule).run ⟨space.registry, plan.asked⟩ =
      .error reason after) :
    policy.TakesBack ∧ ∃ declined place, reason = .rule (.unresolved declined place) := by
  obtain ⟨texts, hasks, hrun⟩ := exists_tracks_of_check hread hcheck
  rw [hbuild] at hrun
  cases hrun with
  | @declined asked declined place _ hinitial _ hanswer =>
    have hmem : declined ∈ texts := hinitial.subset (by simp)
    obtain ⟨asked', value, haccepted⟩ := hasks.accepted declined hmem
    exact ⟨⟨declined, asked', plan.asked ++ asked, value, haccepted, hanswer⟩, declined, place, rfl⟩

theorem compileRule_eq_ok {policy : LiteralPolicy α} {limit : Nat} {name text : String}
    {rule : Rule} {space after : Workspace α} {compilation : Compilation}
    (hread : Rule.read text = .ok rule)
    (h : (compileRule policy name limit rule).run space = .ok compilation after) :
    ∃ id, Built policy space.registry name text id after.registry := by
  simp only [compileRule, EStateM.run] at h
  split at h
  next => cases h
  next plan _ =>
    split at h
    next => cases h
    next id built hbuild =>
      cases h
      have hbuilt := build_isBuilt policy limit name hread
        ⟨space.registry, plan.asked⟩
      rw [EStateM.run, hbuild] at hbuilt
      exact ⟨id, hbuilt⟩

theorem kind_of_compileRule {policy : LiteralPolicy α} {limit : Nat} {name : String}
    {rule : Rule} {space after : Workspace α} {compilation : Compilation}
    (h : (compileRule policy name limit rule).run space = .ok compilation after) :
    compilation.kind = rule.kind := by
  simp only [compileRule, EStateM.run] at h
  split at h
  next => cases h
  next =>
    split at h
    next => cases h
    next => cases h; rfl

theorem compileRule_eq_error {policy : LiteralPolicy α} {limit : Nat} {name text : String}
    {rule : Rule} {space after : Workspace α} {reason : CompileError}
    (hread : Rule.read text = .ok rule)
    (h : (compileRule policy name limit rule).run space = .error reason after) :
    after.registry = space.registry ∨
      policy.TakesBack ∧ Grows policy (text.length + 1) space.registry after.registry := by
  simp only [compileRule, EStateM.run] at h
  split at h
  next =>
    cases h
    exact .inl rfl
  next plan hcheck =>
    split at h
    next failure built hbuild =>
      cases h
      have hbuilt := build_isBuilt policy limit name hread
        ⟨space.registry, plan.asked⟩
      rw [EStateM.run, hbuild] at hbuilt
      exact .inr ⟨(takesBack_of_build_error hread hcheck hbuild).1, hbuilt⟩
    next => cases h

namespace Grammar

theorem compile_eq_ok_run {grammar after : Grammar α} {name text : String}
    {compilation : Compilation} (h : grammar.compile name text = (.ok compilation, after)) :
    ∃ rule, Rule.read text = .ok rule ∧
      (compileRule grammar.policy name (text.length + 1) rule).run grammar.workspace =
        .ok compilation after.workspace := by
  unfold compile at h
  split at h
  next result space hrun =>
    cases h
    unfold compileText at hrun
    obtain ⟨rule, between, hread, hrule⟩ := run_bind_eq_ok hrun
    cases hrule' : Rule.read text with
    | error reason => simp [readRule_run_of_error hrule'] at hread
    | ok parsed =>
      rw [readRule_run_of_ok hrule'] at hread
      cases hread
      exact ⟨rule, rfl, hrule⟩
  next => cases h

theorem compile_eq_ok {grammar after : Grammar α} {name text : String} {compilation : Compilation}
    (h : grammar.compile name text = (.ok compilation, after)) :
    ∃ id, Built grammar.policy grammar.registry name text id after.registry := by
  obtain ⟨rule, hread, hrun⟩ := compile_eq_ok_run h
  exact compileRule_eq_ok hread hrun

/-- A compilation that fails changes nothing, unless the policy took back an answer. -/
theorem compile_eq_error {grammar after : Grammar α} {name text : String} {reason : CompileError}
    (h : grammar.compile name text = (.error reason, after)) :
    after.registry = grammar.registry ∨
      grammar.policy.TakesBack ∧
        Grows grammar.policy (text.length + 1) grammar.registry after.registry := by
  unfold compile at h
  split at h
  next => cases h
  next result space hrun =>
    cases h
    unfold compileText at hrun
    cases hread : Rule.read text with
    | error reason =>
      rw [run_bind_of_error (readRule_run_of_error hread _)] at hrun
      cases hrun
      exact .inl rfl
    | ok rule =>
      rw [run_bind_of_ok (readRule_run_of_ok hread _)] at hrun
      exact compileRule_eq_error hread hrun

/-- A failed compilation leaves the registry as it is if the answers of the policy depend on the
text alone. Under any policy, names and nodes stay as they are and new ones only follow them. -/
theorem compile_error_atomic {grammar after : Grammar α} {name text : String}
    {reason : CompileError} (h : grammar.compile name text = (.error reason, after)) :
    (grammar.policy.DependsOnText → after.registry = grammar.registry) ∧
      grammar.registry.entries <+: after.registry.entries ∧
      ∀ id node, grammar.registry.graph.node? id = some node →
        after.registry.graph.node? id = some node := by
  rcases compile_eq_error h with hsame | ⟨htakes, hgrows⟩
  · rw [hsame]
    exact ⟨fun _ => rfl, List.prefix_rfl, fun _ _ hnode => hnode⟩
  · refine ⟨fun htext => absurd htakes htext.not_takesBack, hgrows.entries_prefix, ?_⟩
    intro id node hnode
    exact hgrows.node?_eq_some hnode

/-- A policy that declines its fourth question lets a sequence fail after its first element. -/
theorem compile_error_atomic_at_fourth_question :
    let policy : LiteralPolicy String :=
      ⟨fun asked text => if asked.length < 3 then some text else none⟩
    let grammar := (new policy {} (.ofSeed 0)).registerTerminal "x" "x"
    let after := (grammar.compile "x" "a & b").2
    grammar.compile "x" "a & b" = (.error (.rule (.unresolved "b" "b")), after) ∧
      after.registry.entries = [("x", 0), ("a", 1)] ∧
      grammar.registry.entries <+: after.registry.entries := by
  intro policy grammar after
  have hfails : grammar.compile "x" "a & b" = (.error (.rule (.unresolved "b" "b")), after) :=
    Prod.fst_eq_iff.mp (by decide +kernel)
  have hatomic := compile_error_atomic hfails
  exact ⟨hfails, by decide +kernel, hatomic.2.1⟩

end Grammar

end StochasticGrammar
