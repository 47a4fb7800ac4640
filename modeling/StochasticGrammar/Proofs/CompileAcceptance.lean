import StochasticGrammar.Proofs.ResolvableReferences

namespace StochasticGrammar

variable {α : Type}

section Compile

variable {policy : LiteralPolicy α} {limit : Nat} {name text : String} {rule : Rule}
  {space built : Workspace α} {plan : Plan} {reason : CompileError}

theorem compileRule_run_of_check_error
    (hcheck : (check policy space.registry limit name rule).run ⟨[], space.asked⟩ =
      .error reason plan) :
    (compileRule policy name limit rule).run space =
      .error reason { space with asked := plan.asked } := by
  simp only [compileRule, EStateM.run] at hcheck ⊢
  rw [hcheck]

theorem compileRule_run_of_build_error
    (hcheck : (check policy space.registry limit name rule).run ⟨[], space.asked⟩ = .ok () plan)
    (hbuild : (build policy limit name rule).run ⟨space.registry, plan.asked⟩ =
      .error reason built) :
    (compileRule policy name limit rule).run space = .error reason built := by
  simp only [compileRule, EStateM.run] at hcheck hbuild ⊢
  rw [hcheck]
  simp only [hbuild]

theorem exists_compileRule_run_of_ok {id : NodeId}
    (hcheck : (check policy space.registry limit name rule).run ⟨[], space.asked⟩ = .ok () plan)
    (hbuild : (build policy limit name rule).run ⟨space.registry, plan.asked⟩ = .ok id built) :
    ∃ compilation, (compileRule policy name limit rule).run space = .ok compilation built := by
  simp only [compileRule, EStateM.run] at hcheck hbuild ⊢
  rw [hcheck]
  simp only [hbuild]
  exact ⟨_, rfl⟩

/-- A compilation of a rule with room for its text succeeds, and the references can be resolved, or
it fails by a fault of a rule. Then one of the references cannot be resolved for sure, or the policy
took back an answer. -/
theorem compileRule_decides (policy : LiteralPolicy α) (name : String) (space : Workspace α)
    (hread : Rule.read text = .ok rule) (hroom : text.length < limit) :
    (∃ compilation after, (compileRule policy name limit rule).run space = .ok compilation after ∧
        ∀ reference ∈ rule.references,
          Resolvable space.registry.Has policy.MayAccept reference) ∨
      ∃ fault after, (compileRule policy name limit rule).run space = .error (.rule fault) after ∧
        (policy.TakesBack ∨ ∃ reference ∈ rule.references,
          ¬Resolvable space.registry.Has policy.Accepts reference) := by
  have hdecides := check_decides policy space.registry name hread hroom
    (Plan.isJustified_nil policy space.registry space.asked)
  cases hcheck : (check policy space.registry limit name rule).run ⟨[], space.asked⟩ with
  | error reason plan =>
    rw [hcheck] at hdecides
    obtain ⟨⟨fault, rfl⟩, hreference⟩ := hdecides
    exact .inr ⟨fault, _, compileRule_run_of_check_error hcheck, .inr hreference⟩
  | ok _ plan =>
    rw [hcheck] at hdecides
    cases hbuild : (build policy limit name rule).run ⟨space.registry, plan.asked⟩ with
    | ok id built =>
      obtain ⟨compilation, hrun⟩ := exists_compileRule_run_of_ok hcheck hbuild
      exact .inl ⟨compilation, built, hrun, hdecides.2⟩
    | error reason built =>
      obtain ⟨htakes, declined, place, rfl⟩ := takesBack_of_build_error hread hcheck hbuild
      exact .inr ⟨_, built, compileRule_run_of_build_error hcheck hbuild, .inl htakes⟩

end Compile

namespace Grammar

/-- What a compilation comes to: it succeeds with a rule whose references can be resolved, or it
fails by a fault of a rule. -/
theorem compile_decides (grammar : Grammar α) (name text : String) :
    (∃ compilation rule, (grammar.compile name text).1 = .ok compilation ∧
        Rule.read text = .ok rule ∧ ∀ reference ∈ rule.references,
          Resolvable grammar.registry.Has grammar.policy.MayAccept reference) ∨
      ∃ fault, (grammar.compile name text).1 = .error (.rule fault) ∧
        (grammar.policy.TakesBack ∨ ∀ rule, Rule.read text = .ok rule →
          ∃ reference ∈ rule.references,
            ¬Resolvable grammar.registry.Has grammar.policy.Accepts reference) := by
  unfold compile compileText
  cases hread : Rule.read text with
  | error fault =>
    rw [run_bind_of_error (readRule_run_of_error hread grammar.workspace)]
    exact .inr ⟨fault, rfl, .inr fun rule hrule => by cases hrule⟩
  | ok rule =>
    rw [run_bind_of_ok (readRule_run_of_ok hread grammar.workspace)]
    rcases compileRule_decides grammar.policy name grammar.workspace hread
        (Nat.lt_succ_self text.length) with
      ⟨compilation, after, hrun, hresolvable⟩ | ⟨fault, after, hrun, hfails⟩
    · rw [hrun]
      exact .inl ⟨compilation, rule, rfl, rfl, hresolvable⟩
    · rw [hrun]
      refine .inr ⟨fault, rfl, hfails.imp_right fun hreference other hother => ?_⟩
      cases hother
      exact hreference

theorem isOk_compile_iff {grammar : Grammar α} (htext : grammar.policy.DependsOnText)
    (name text : String) :
    (grammar.compile name text).1.isOk = true ↔
      ∃ rule, Rule.read text = .ok rule ∧ ∀ reference ∈ rule.references,
        Resolvable grammar.registry.Has grammar.policy.Accepts reference := by
  rcases grammar.compile_decides name text with
    ⟨compilation, rule, hcompile, hread, hresolvable⟩ | ⟨fault, hcompile, hfails⟩
  · rw [hcompile]
    refine iff_of_true rfl ⟨rule, hread, fun reference hmem => ?_⟩
    exact (hresolvable reference hmem).mono (fun _ hknown => hknown)
      fun _ => htext.accepts_of_mayAccept
  · rw [hcompile]
    refine iff_of_false (by simp [Except.isOk, Except.toBool]) ?_
    rintro ⟨rule, hread, hresolvable⟩
    rcases hfails with htakes | hreference
    · exact htext.not_takesBack htakes
    · obtain ⟨reference, hmem, hnot⟩ := hreference rule hread
      exact hnot (hresolvable reference hmem)

theorem isOk_compile_mono {grammar other : Grammar α} (htext : grammar.policy.DependsOnText)
    (hpolicy : other.policy = grammar.policy)
    (hmore : ∀ known, grammar.registry.Has known → other.registry.Has known) (name text : String)
    (h : (grammar.compile name text).1.isOk = true) :
    (other.compile name text).1.isOk = true := by
  have hother : other.policy.DependsOnText := hpolicy ▸ htext
  obtain ⟨rule, hread, hresolvable⟩ := (isOk_compile_iff htext name text).mp h
  refine (isOk_compile_iff hother name text).mpr ⟨rule, hread, ?_⟩
  intro reference hmem
  rw [hpolicy]
  exact (hresolvable reference hmem).mono hmore fun _ haccepted => haccepted

/-- If the policy goes by the text, exactly the rules are compiled whose references can all be
resolved. Only the names that are registered count for this, and more of them do no harm. -/
theorem compile_accepts_resolvable {grammar : Grammar α} (htext : grammar.policy.DependsOnText)
    (name text : String) :
    ((grammar.compile name text).1.isOk = true ↔
      ∃ rule, Rule.read text = .ok rule ∧ ∀ reference ∈ rule.references,
        Resolvable grammar.registry.Has grammar.policy.Accepts reference) ∧
    ∀ other : Grammar α, other.policy = grammar.policy →
      ((∀ known, other.registry.Has known ↔ grammar.registry.Has known) →
        (other.compile name text).1.isOk = (grammar.compile name text).1.isOk) ∧
      ((∀ known, grammar.registry.Has known → other.registry.Has known) →
        (grammar.compile name text).1.isOk = true → (other.compile name text).1.isOk = true) := by
  refine ⟨isOk_compile_iff htext name text, ?_⟩
  intro other hpolicy
  have hother : other.policy.DependsOnText := hpolicy ▸ htext
  refine ⟨fun hsame => ?_, fun hmore => isOk_compile_mono htext hpolicy hmore name text⟩
  have hforth := isOk_compile_mono hother hpolicy.symm (fun known => (hsame known).mp) name text
  have hback := isOk_compile_mono htext hpolicy (fun known => (hsame known).mpr) name text
  exact Bool.eq_iff_iff.mpr ⟨hforth, hback⟩

/-- A fallback on a sequence that has a literal twice and a terminal. -/
theorem compile_accepts_resolvable_of_nested :
    let policy : LiteralPolicy String := .ofText fun text => if text = "1" then some text else none
    let grammar := (new policy {} (.ofSeed 0)).registerTerminal "x" "value"
    policy.DependsOnText ∧
      Rule.read "1 & x & 1 -> 1" = .ok (.composite (.fallback "1 & x & 1" "1")) ∧
      (grammar.compile "s" "1 & x & 1 -> 1").1.isOk = true := by
  intro policy grammar
  have htext : policy.DependsOnText := fun _ _ _ => rfl
  have hread : Rule.read "1 & x & 1 -> 1" = .ok (.composite (.fallback "1 & x & 1" "1")) := by
    decide +kernel
  have hoperand : Rule.read "1 & x & 1" = .ok (.composite (.sequence ["1", "x", "1"])) := by
    decide +kernel
  have hliteral : Resolvable grammar.registry.Has policy.Accepts "1" :=
    .literal (by decide) (by decide +kernel) fun _ => ⟨"1", rfl⟩
  have hterminal : Resolvable grammar.registry.Has policy.Accepts "x" :=
    .known (show grammar.registry.contains "x" = true by decide +kernel)
  have hsequence : Resolvable grammar.registry.Has policy.Accepts "1 & x & 1" := by
    refine .operands (by decide) hoperand ?_
    simpa [Rule.references, Composite.operands] using ⟨hliteral, hterminal, hliteral⟩
  refine ⟨htext, hread, (compile_accepts_resolvable htext "s" _).1.mpr ⟨_, hread, ?_⟩⟩
  simpa [Rule.references, Composite.operands] using ⟨hsequence, hliteral⟩

end Grammar

end StochasticGrammar
