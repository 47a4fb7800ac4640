import StochasticGrammar.Proofs.CompilationReport

namespace StochasticGrammar

variable {α : Type}

instance decidableEqResult {ε σ β : Type} [DecidableEq ε] [DecidableEq σ] [DecidableEq β] :
    DecidableEq (EStateM.Result ε σ β)
  | .ok value state, .ok value' state' =>
    decidable_of_iff (value = value' ∧ state = state') (by rw [EStateM.Result.ok.injEq])
  | .error reason state, .error reason' state' =>
    decidable_of_iff (reason = reason' ∧ state = state') (by rw [EStateM.Result.error.injEq])
  | .ok _ _, .error _ _ => .isFalse nofun
  | .error _ _, .ok _ _ => .isFalse nofun

/-- The names that a plan adds to those of a registry are the ones that were not registered. -/
theorem InSync.mem_new_iff {base registry : Registry α} {plan : Plan}
    (h : InSync base plan registry) {new : List String} (hnames : registry.names = base.names ++ new)
    (name : String) : name ∈ new ↔ name ∉ base.names ∧ name ∈ plan.planned := by
  have hnodup : (base.names ++ new).Nodup := hnames ▸ registry.names_nodup
  have hknown : name ∈ base.names ++ new ↔ name ∈ base.names ∨ name ∈ plan.planned := by
    rw [← hnames, ← Registry.contains_iff_mem_names, ← Registry.contains_iff_mem_names, ← h name]
    simp [Plan.knows]
  constructor
  · intro hnew
    have hunknown : name ∉ base.names := fun hold =>
      (List.nodup_append.mp hnodup).2.2 name hold name hnew rfl
    exact ⟨hunknown, (hknown.mp (List.mem_append_right _ hnew)).resolve_left hunknown⟩
  · rintro ⟨hunknown, hplanned⟩
    exact (List.mem_append.mp (hknown.mpr (.inr hplanned))).resolve_left hunknown

/-- If a check passes, the build after it asks the policy about texts that the check asked about, in
the same order from the first on. It fails only at a text that the policy declines by then. If it
succeeds, it has asked about all of them, and the new names are those that the check has planned and
the name of the rule, as far as they were not registered. -/
theorem build_follows_check {policy : LiteralPolicy α} {limit : Nat} {name text : String}
    {rule : Rule} {space : Workspace α} {plan : Plan} (hread : Rule.read text = .ok rule)
    (hcheck : (check policy space.registry limit name rule).run ⟨[], space.asked⟩ = .ok () plan) :
    ∃ texts, plan.asked = space.asked ++ texts ∧
      (∀ reason built, (build policy limit name rule).run ⟨space.registry, plan.asked⟩ =
          .error reason built → ∃ earlier declined place, earlier ++ [declined] <+: texts ∧
        built.asked = plan.asked ++ (earlier ++ [declined]) ∧
        policy.answer (plan.asked ++ earlier) declined = none ∧
        reason = .rule (.unresolved declined place)) ∧
      ∀ id built, (build policy limit name rule).run ⟨space.registry, plan.asked⟩ =
          .ok id built → built.asked = plan.asked ++ texts ∧
        ∃ new, built.registry.names = space.registry.names ++ new ∧ ∀ other,
          other ∈ new ↔ other ∉ space.registry.names ∧ (other ∈ plan.planned ∨ other = name) := by
  obtain ⟨texts, hasks, htracks⟩ := exists_tracks_of_check hread hcheck
  refine ⟨texts, hasks.asked_eq, ?_, ?_⟩
  · intro reason built hbuild
    rw [hbuild] at htracks
    cases htracks with
    | declined earlier hinitial hasked hanswer =>
      exact ⟨earlier, _, _, hinitial, hasked, hanswer, rfl⟩
  · intro id built hbuild
    rw [hbuild] at htracks
    cases htracks with
    | done hasked hsync =>
      have hgrown := names_prefix_build policy limit name hread ⟨space.registry, plan.asked⟩
      rw [hbuild] at hgrown
      obtain ⟨new, hnames⟩ := hgrown
      refine ⟨hasked, new, hnames.symm, fun other => ?_⟩
      have hplanned : other ∈ (plan.add name).planned ↔ other ∈ plan.planned ∨ other = name := by
        rw [or_comm]
        exact List.mem_cons
      rw [hsync.mem_new_iff hnames.symm, hplanned]

/-- A rule that refers to itself and to a name twice, under policies that count their questions: one
declines the seventh, which is the third of the build, and one only a ninth, which is not asked. -/
theorem build_follows_check_of_counted_questions :
    let text := "a & x & b -> c & a & s"
    let rule := Rule.composite (.fallback "a & x & b" "c & a & s")
    let space : Workspace Nat := ⟨(Registry.empty.define "x" (.leaf 0)).2, []⟩
    let texts := ["a", "b", "c", "s"]
    let plan : Plan := ⟨["c & a & s", "s", "s", "c", "c", "a & x & b", "b", "b", "a", "a"], texts⟩
    let declining (place : Nat) : LiteralPolicy Nat :=
      ⟨fun asked _ => if asked.length = place then none else some asked.length⟩
    Rule.read text = .ok rule ∧
      (check (declining 6) space.registry 23 "s" rule).run ⟨[], space.asked⟩ = .ok () plan ∧
      (check (declining 8) space.registry 23 "s" rule).run ⟨[], space.asked⟩ = .ok () plan ∧
      (∃ reason built, (build (declining 6) 23 "s" rule).run ⟨space.registry, texts⟩ =
        .error reason built ∧ ∃ earlier declined place, earlier ++ [declined] <+: texts ∧
          built.asked = texts ++ (earlier ++ [declined]) ∧
          (declining 6).answer (texts ++ earlier) declined = none ∧
          reason = .rule (.unresolved declined place)) ∧
      ∃ id built, (build (declining 8) 23 "s" rule).run ⟨space.registry, texts⟩ = .ok id built ∧
        built.asked = texts ++ texts ∧ ∃ new, built.registry.names = ["x"] ++ new ∧
          ∀ other, other ∈ new ↔ other ∉ ["x"] ∧ (other ∈ plan.planned ∨ other = "s") := by
  intro text rule space texts plan declining
  have hread : Rule.read text = .ok rule := by decide +kernel
  have hfirst : (check (declining 6) space.registry 23 "s" rule).run ⟨[], space.asked⟩ =
      .ok () plan := by
    decide +kernel
  have hsecond : (check (declining 8) space.registry 23 "s" rule).run ⟨[], space.asked⟩ =
      .ok () plan := by
    decide +kernel
  have hfails : (build (declining 6) 23 "s" rule).run' ⟨space.registry, texts⟩ = none := by
    decide +kernel
  have hsucceeds : (build (declining 8) 23 "s" rule).run' ⟨space.registry, texts⟩ = some 7 := by
    decide +kernel
  refine ⟨hread, hfirst, hsecond, ?_, ?_⟩
  · cases hbuild : (build (declining 6) 23 "s" rule).run ⟨space.registry, texts⟩ with
    | ok id built =>
      delta EStateM.run' at hfails
      rw [hbuild] at hfails
      cases hfails
    | error reason built =>
      obtain ⟨asked, hasked, hdeclined, -⟩ := build_follows_check hread hfirst
      obtain rfl : texts = asked := hasked
      exact ⟨reason, built, rfl, hdeclined reason built hbuild⟩
  · cases hbuild : (build (declining 8) 23 "s" rule).run ⟨space.registry, texts⟩ with
    | error reason built =>
      delta EStateM.run' at hsucceeds
      rw [hbuild] at hsucceeds
      cases hsucceeds
    | ok id built =>
      obtain ⟨asked, hasked, -, hnames⟩ := build_follows_check hread hsecond
      obtain rfl : texts = asked := hasked
      exact ⟨id, built, rfl, hnames id built hbuild⟩

end StochasticGrammar
