import StochasticGrammar.Proofs.ExpansionRefinement

namespace StochasticGrammar

/-- How many primary operands an expansion can still enter one inside the other. -/
def remainingDepth (bound depth : Int) : Int := max (bound - depth) 0

theorem remainingDepth_eq_zero_iff {bound depth : Int} :
    remainingDepth bound depth = 0 ↔ bound ≤ depth := by
  simp only [remainingDepth]
  omega

theorem shouldFallBack_iff {depth bound : Int} :
    shouldFallBack depth bound = true ↔ remainingDepth bound depth = 0 := by
  rw [shouldFallBack, decide_eq_true_eq, remainingDepth_eq_zero_iff]

/-- A primary operand is entered with one level less. -/
theorem remainingDepth_succ {bound depth : Int} (h : remainingDepth bound depth ≠ 0) :
    remainingDepth bound (depth + 1) = remainingDepth bound depth - 1 := by
  simp only [remainingDepth] at h ⊢
  omega

theorem inOrder_singleton {σ α ρ : Type} (step : ρ → Sampling σ (List α)) (operand : ρ) :
    inOrder step [operand] = step operand := by
  simp only [inOrder, pure_bind, List.append_nil, bind_pure]

namespace Composite

variable {σ α ρ : Type} [RandomSource σ] {repetition : RepetitionMode}
  {bound bound' depth depth' : Int} {first second : Int → ρ → Sampling σ (List α)}

theorem exists_eq_fallback {shape : Composite ρ} (hkind : shape.kind = .fallback) :
    ∃ primary alternate, shape = .fallback primary alternate := by
  cases shape <;> cases hkind
  exact ⟨_, _, rfl⟩

/-- Other composites than fallbacks enter their operands at their own depth. -/
theorem expand_eq_of_ne_fallback {shape : Composite ρ} (hkind : shape.kind ≠ .fallback)
    (hoperand : first depth = second depth') :
    shape.expand ⟨bound, repetition⟩ first depth =
      shape.expand ⟨bound', repetition⟩ second depth' := by
  cases shape with
  | sequence elements => simp only [expand, hoperand]
  | select options => simp only [expand, hoperand]
  | repetition body count => simp only [expand, hoperand]
  | fallback primary alternate => exact absurd rfl hkind

/-- The operands are entered at depths from which the same depth remains again. -/
theorem expand_eq_of_remainingDepth
    (hoperand : ∀ depth depth', remainingDepth bound depth = remainingDepth bound' depth' →
      first depth = second depth')
    (h : remainingDepth bound depth = remainingDepth bound' depth') (shape : Composite ρ) :
    shape.expand ⟨bound, repetition⟩ first depth =
      shape.expand ⟨bound', repetition⟩ second depth' := by
  by_cases hkind : shape.kind = .fallback
  · obtain ⟨primary, alternate, rfl⟩ := exists_eq_fallback hkind
    have hsame : shouldFallBack depth bound = shouldFallBack depth' bound' := by
      rw [Bool.eq_iff_iff, shouldFallBack_iff, shouldFallBack_iff, h]
    simp only [expand, hsame]
    split
    next => rw [hoperand depth depth' h]
    next hremains =>
      have hright : remainingDepth bound' depth' ≠ 0 := mt shouldFallBack_iff.mpr hremains
      have hdeeper : remainingDepth bound (depth + 1) = remainingDepth bound' (depth' + 1) := by
        rw [remainingDepth_succ (h ▸ hright), remainingDepth_succ hright, h]
      rw [hoperand (depth + 1) (depth' + 1) hdeeper]
  · exact expand_eq_of_ne_fallback hkind (hoperand depth depth' h)

end Composite

namespace Node

variable {α : Type}

/-- A fallback becomes the sequence of its alternate alone. -/
def alternateOnly : Node α → Node α
  | composite (.fallback _ alternate) => composite (.sequence [alternate])
  | node => node

theorem alternateOnly_of_ne_fallback {shape : Composite NodeId} (h : shape.kind ≠ .fallback) :
    (composite shape : Node α).alternateOnly = composite shape := by
  cases shape with
  | fallback primary alternate => exact absurd rfl h
  | _ => rfl

end Node

namespace Graph

variable {α : Type}

/-- The graph in which every fallback is replaced by its alternate. -/
def alternatesOnly (graph : Graph α) : Graph α := ⟨graph.nodes.map Node.alternateOnly⟩

theorem node?_alternatesOnly (graph : Graph α) (id : NodeId) :
    graph.alternatesOnly.node? id = (graph.node? id).map Node.alternateOnly :=
  Array.getElem?_map

theorem node?_alternatesOnly_ne_fallback (graph : Graph α) (id : NodeId)
    (primary alternate : NodeId) :
    graph.alternatesOnly.node? id ≠ some (.composite (.fallback primary alternate)) := by
  rw [node?_alternatesOnly]
  intro hfallback
  obtain ⟨node, -, hnode⟩ := Option.map_eq_some_iff.mp hfallback
  unfold Node.alternateOnly at hnode
  split at hnode
  next => cases hnode
  next hother => exact hother _ _ hnode

section Emission

variable {σ : Type} [RandomSource σ] (graph : Graph α) (repetition : RepetitionMode)
  {bound bound' depth depth' : Int}

theorem emit_eq_of_remainingDepth
    (h : remainingDepth bound depth = remainingDepth bound' depth') (nesting : Nat) (id : NodeId) :
    (graph.emit ⟨bound, repetition⟩ nesting depth id : Sampling σ (List α)) =
      graph.emit ⟨bound', repetition⟩ nesting depth' id := by
  induction nesting generalizing depth depth' id with
  | zero => rfl
  | succ nesting ih =>
    unfold emit
    split
    next => rfl
    next => rfl
    next shape _ =>
      exact Composite.expand_eq_of_remainingDepth
        (fun depth depth' hdepths => funext fun id => ih hdepths id) h shape

theorem emit_alternatesOnly (h : bound ≤ depth) (nesting : Nat) (id : NodeId) :
    (graph.alternatesOnly.emit ⟨bound', repetition⟩ nesting depth' id : Sampling σ (List α)) =
      graph.emit ⟨bound, repetition⟩ nesting depth id := by
  induction nesting generalizing id with
  | zero => rfl
  | succ nesting ih =>
    unfold emit
    rw [node?_alternatesOnly]
    cases graph.node? id with
    | none => rfl
    | some node =>
      cases node with
      | leaf value => rfl
      | composite shape =>
        by_cases hkind : shape.kind = .fallback
        · obtain ⟨primary, alternate, rfl⟩ := Composite.exists_eq_fallback hkind
          have hback : shouldFallBack depth bound = true :=
            shouldFallBack_iff.mpr (remainingDepth_eq_zero_iff.mpr h)
          simp only [Option.map_some, Node.alternateOnly, Composite.expand, hback, ↓reduceIte]
          rw [inOrder_singleton, ih alternate]
        · simp only [Option.map_some, Node.alternateOnly_of_ne_fallback hkind]
          exact Composite.expand_eq_of_ne_fallback hkind (funext ih)

/-- Expansions of a node from which the same depth remains are the same computation, however deep
they may nest: for every source one ends where the other does, with the same output and the same
draws. If no depth remains, it is the expansion in the graph without fallbacks, at any depth. -/
theorem emission_follows_remainingDepth
    (h : remainingDepth bound depth = remainingDepth bound' depth') :
    (∀ nesting id, (graph.emit ⟨bound, repetition⟩ nesting depth id : Sampling σ (List α)) =
      graph.emit ⟨bound', repetition⟩ nesting depth' id) ∧
    (bound ≤ depth → ∀ other otherDepth nesting id,
      (graph.emit ⟨bound, repetition⟩ nesting depth id : Sampling σ (List α)) =
        graph.alternatesOnly.emit ⟨other, repetition⟩ nesting otherDepth id) ∧
    ∀ id primary alternate,
      graph.alternatesOnly.node? id ≠ some (.composite (.fallback primary alternate)) :=
  ⟨graph.emit_eq_of_remainingDepth repetition h,
    fun hbound _ _ nesting id => (graph.emit_alternatesOnly repetition hbound nesting id).symm,
    graph.node?_alternatesOnly_ne_fallback⟩

end Emission

/-- A rule that holds itself twice below a fallback, expanded with two levels left and with none. -/
theorem emission_follows_remainingDepth_of_cycle :
    let graph : Graph String :=
      ⟨#[.leaf "x", .composite (.fallback 2 0), .composite (.sequence [0, 1, 1])]⟩
    let expansion (bound depth : Int) : Sampling Script (List String) :=
      graph.emit ⟨bound, .fixed⟩ 9 depth 1
    let flat : Sampling Script (List String) := graph.alternatesOnly.emit ⟨5, .fixed⟩ 9 0 1
    remainingDepth 7 5 = remainingDepth 1 (-1) ∧ expansion 7 5 = expansion 1 (-1) ∧
      (expansion 7 5).run ⟨#[], 0⟩ = .ok (List.replicate 7 "x") ⟨#[], 0⟩ ∧
      remainingDepth 3 4 = remainingDepth (-2) 0 ∧ expansion 3 4 = flat ∧
      flat.run ⟨#[], 0⟩ = .ok ["x"] ⟨#[], 0⟩ := by
  intro graph expansion flat
  have hsome : remainingDepth 7 5 = remainingDepth 1 (-1) := by decide
  have hnone : remainingDepth 3 4 = remainingDepth (-2) 0 := by decide
  have hflat : expansion 3 4 = flat :=
    (graph.emission_follows_remainingDepth .fixed hnone).2.1 (by decide) 5 0 9 1
  refine ⟨hsome, (graph.emission_follows_remainingDepth .fixed hsome).1 9 1, rfl, hnone, hflat, ?_⟩
  rw [← hflat]
  rfl

end Graph

end StochasticGrammar
