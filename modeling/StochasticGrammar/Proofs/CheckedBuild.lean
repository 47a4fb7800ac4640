import StochasticGrammar.Proofs.BuildTracking

namespace StochasticGrammar

variable {α : Type}

/-- A check that is made before a build at the same depth of nesting. -/
def CheckedBuild (policy : LiteralPolicy α) (base : Registry α)
    (check : String → Rule → Checking Unit) (build : String → Rule → Building α NodeId) : Prop :=
  ∀ name text rule plan last, Rule.read text = .ok rule →
    (check name rule).run plan = .ok () last →
    ∃ texts, Asks policy plan last texts ∧ ∀ space : Workspace α, InSync base plan space.registry →
      Tracks policy base space texts (last.add name) ((build name rule).run space)

theorem check_bare_eq_ok {policy : LiteralPolicy α} {base : Registry α} {limit : Nat}
    {name reference : String} {plan last : Plan}
    (h : (check policy base (limit + 1) name (.bare reference)).run plan = .ok () last) :
    (plan.knows base reference = true ∧ last = plan) ∨
      (plan.knows base reference = false ∧ reference.isEmpty = false ∧
        (∃ value, policy.answer plan.asked reference = some value) ∧
        last = (plan.ask reference).add reference) := by
  unfold check at h
  rw [run_get_bind] at h
  cases hknows : plan.knows base reference with
  | true =>
    rw [hknows] at h
    cases h
    exact .inl ⟨rfl, rfl⟩
  | false =>
    rw [hknows] at h
    simp only [Bool.false_eq_true, ↓reduceIte, checkLiteral, EStateM.run] at h
    split at h
    next => cases h
    next hempty =>
      split at h
      next => cases h
      next value hvalue =>
        cases h
        exact .inr ⟨rfl, by simpa using hempty, ⟨value, hvalue⟩, rfl⟩

section Operands

variable {base : Registry α} {check : String → Rule → Checking Unit} {name reference : String}
  {rest : List String} {plan : Plan}

theorem checkOperands_run_of_knows (h : plan.knows base reference = true) :
    (checkOperands base name check (reference :: rest)).run plan =
      (checkOperands base name check rest).run plan := by
  rw [checkOperands, run_get_bind, h]
  rfl

theorem checkOperands_run_of_empty (h : plan.knows base reference = false)
    (hempty : reference.isEmpty = true) :
    (checkOperands base name check (reference :: rest)).run plan =
      .error (.rule (.unresolved reference name)) plan := by
  rw [checkOperands, run_get_bind, h]
  simp only [Bool.false_eq_true, ↓reduceIte, hempty]
  rfl

theorem checkOperands_run_of_new (h : plan.knows base reference = false)
    (hne : reference.isEmpty = false) :
    (checkOperands base name check (reference :: rest)).run plan =
      (readRule reference >>= fun rule => check reference rule >>= fun _ =>
        modify (Plan.add reference) >>= fun _ => checkOperands base name check rest).run plan := by
  rw [checkOperands, run_get_bind, h]
  simp only [Bool.false_eq_true, ↓reduceIte, hne]

theorem checkOperands_cons_eq_ok {last : Plan}
    (h : (checkOperands base name check (reference :: rest)).run plan = .ok () last) :
    (plan.knows base reference = true ∧ (checkOperands base name check rest).run plan = .ok () last) ∨
      (plan.knows base reference = false ∧ reference.isEmpty = false ∧
        ∃ rule between, Rule.read reference = .ok rule ∧
          (check reference rule).run plan = .ok () between ∧
          (checkOperands base name check rest).run (between.add reference) = .ok () last) := by
  cases hknows : plan.knows base reference with
  | true =>
    rw [checkOperands_run_of_knows hknows] at h
    exact .inl ⟨rfl, h⟩
  | false =>
    cases hempty : reference.isEmpty with
    | true =>
      rw [checkOperands_run_of_empty hknows hempty] at h
      cases h
    | false =>
      rw [checkOperands_run_of_new hknows hempty] at h
      cases hread : Rule.read reference with
      | error reason =>
        rw [run_bind_of_error (readRule_run_of_error hread plan)] at h
        cases h
      | ok rule =>
        rw [run_bind_of_ok (readRule_run_of_ok hread plan)] at h
        obtain ⟨_, between, hcheck, hrest⟩ := run_bind_eq_ok h
        exact .inr ⟨rfl, rfl, rule, between, rfl, hcheck, hrest⟩

end Operands

theorem checkedBuild_bare {policy : LiteralPolicy α} {base : Registry α} {limit : Nat}
    {name reference : String} {plan last : Plan}
    (h : (check policy base (limit + 1) name (.bare reference)).run plan = .ok () last) :
    ∃ texts, Asks policy plan last texts ∧ ∀ space : Workspace α, InSync base plan space.registry →
      Tracks policy base space texts (last.add name)
        ((build policy (limit + 1) name (.bare reference)).run space) := by
  unfold build
  rcases check_bare_eq_ok h with ⟨hknows, rfl⟩ | ⟨hknows, _, ⟨value, hvalue⟩, rfl⟩
  · refine ⟨[], ⟨by simp, by simp⟩, fun space hsync => ?_⟩
    obtain ⟨id, hid⟩ := hsync.exists_find? hknows
    rw [run_bind_of_ok (literalNode_run_of_some hid)]
    exact bindName_tracks hsync name id
  · refine ⟨[reference], ⟨rfl, ?_⟩, fun space hsync => ?_⟩
    · intro text hmem
      obtain rfl := List.mem_singleton.mp hmem
      exact ⟨_, value, hvalue⟩
    · have hliteral := literalNode_tracks policy name hsync hknows
      exact hliteral.bind fun id middle hmiddle => bindName_tracks hmiddle name id

/-- The operands are looked into in the same order, and known ones are passed over by both. -/
theorem checkedBuild_operands {policy : LiteralPolicy α} {base : Registry α}
    {check : String → Rule → Checking Unit} {build : String → Rule → Building α NodeId}
    (hbuild : CheckedBuild policy base check build) {name : String} {references : List String}
    {plan last : Plan} (h : (checkOperands base name check references).run plan = .ok () last) :
    ∃ texts, Asks policy plan last texts ∧ ∀ space : Workspace α, InSync base plan space.registry →
      Tracks policy base space texts last ((references.mapM (operandNode build)).run space) := by
  induction references generalizing plan with
  | nil =>
    cases h
    exact ⟨[], ⟨by simp, by simp⟩, fun space hsync => .done (by simp) hsync⟩
  | cons reference rest ih =>
    rcases checkOperands_cons_eq_ok h with
      ⟨hknows, hrest⟩ | ⟨hknows, _, rule, between, hread, hcheck, hrest⟩
    · obtain ⟨texts, hasks, htracks⟩ := ih hrest
      refine ⟨texts, hasks, fun space hsync => ?_⟩
      obtain ⟨id, hid⟩ := hsync.exists_find? hknows
      rw [List.mapM_cons, run_bind_of_ok (operandNode_run_of_some hid)]
      exact (htracks space hsync).map _
    · obtain ⟨first, hfirst, hfirstTracks⟩ :=
        hbuild reference reference rule plan between hread hcheck
      obtain ⟨later, hlater, hlaterTracks⟩ := ih hrest
      refine ⟨first ++ later, (hfirst.add reference).append hlater, fun space hsync => ?_⟩
      have hnode : Tracks policy base space first (between.add reference)
          ((operandNode build reference).run space) := by
        rw [operandNode_run_of_none (hsync.find?_eq_none hknows),
          run_bind_of_ok (readRule_run_of_ok hread space)]
        exact hfirstTracks space hsync
      rw [List.mapM_cons]
      exact hnode.bind fun id middle hmiddle => (hlaterTracks middle hmiddle).map _

theorem checkedBuild_composite {policy : LiteralPolicy α} {base : Registry α} {limit : Nat}
    (hbuild : CheckedBuild policy base (check policy base limit) (build policy limit))
    {name text : String} {shape : Composite String} {plan last : Plan}
    (hread : Rule.read text = .ok (.composite shape))
    (h : (check policy base (limit + 1) name (.composite shape)).run plan = .ok () last) :
    ∃ texts, Asks policy plan last texts ∧ ∀ space : Workspace α, InSync base plan space.registry →
      Tracks policy base space texts (last.add name)
        ((build policy (limit + 1) name (.composite shape)).run space) := by
  unfold check at h
  obtain ⟨texts, hasks, htracks⟩ := checkedBuild_operands hbuild h
  refine ⟨texts, hasks, ?_⟩
  intro space hsync
  have hoperands := htracks space hsync
  unfold build
  cases hresult : (shape.mapM (operandNode (build policy limit))).run space with
  | error reason after =>
    rw [run_bind_of_error hresult]
    rw [Composite.mapM_eq_error hresult] at hoperands
    cases hoperands with
    | declined asked hinitial hasked hanswer => exact .declined asked hinitial hasked hanswer
  | ok found after =>
    obtain ⟨hrun, hform⟩ := Composite.mapM_eq_ok hresult
    rw [hrun] at hoperands
    rw [run_bind_of_ok hresult,
      defineShape_run (hform.isSound (Rule.read_eq_composite hread).1)]
    cases hoperands with
    | done hasked hafter => exact .done hasked (hafter.define name _)

/-- A check that passes leads the build, whatever the nesting. -/
theorem build_tracks_check (policy : LiteralPolicy α) (base : Registry α) (limit : Nat) :
    CheckedBuild policy base (check policy base limit) (build policy limit) := by
  induction limit with
  | zero =>
    intro name text rule plan last hread h
    cases h
  | succ limit ih =>
    intro name text rule plan last hread h
    cases rule with
    | bare reference => exact checkedBuild_bare h
    | composite shape => exact checkedBuild_composite ih hread h

/-- A check of a rule on its own leads the build that is made after it. -/
theorem exists_tracks_of_check {policy : LiteralPolicy α} {limit : Nat} {name text : String}
    {rule : Rule} {space : Workspace α} {plan : Plan} (hread : Rule.read text = .ok rule)
    (hcheck : (check policy space.registry limit name rule).run ⟨[], space.asked⟩ = .ok () plan) :
    ∃ texts, Asks policy ⟨[], space.asked⟩ plan texts ∧
      Tracks policy space.registry ⟨space.registry, plan.asked⟩ texts (plan.add name)
        ((build policy limit name rule).run ⟨space.registry, plan.asked⟩) := by
  obtain ⟨texts, hasks, htracks⟩ :=
    build_tracks_check policy space.registry limit name text rule _ plan hread hcheck
  exact ⟨texts, hasks, htracks ⟨space.registry, plan.asked⟩ (inSync_nil _ space.asked)⟩

end StochasticGrammar
