import StochasticGrammar.Proofs.ExpansionSuccess
import StochasticGrammar.Proofs.ReachableNodes
import StochasticGrammar.Proofs.RecursionOrder
import StochasticGrammar.Proofs.SoundNodes

namespace StochasticGrammar

variable {α : Type}

theorem Composite.Enters.cases {bound depth entered : Int} {shape : Composite NodeId}
    {child : NodeId} (h : shape.Enters bound depth entered child) :
    (entered = depth ∧ child ∈ (Node.composite shape : Node α).depthPreserving) ∨
      (entered = depth + 1 ∧ depth < bound ∧ child ∈ shape.operands) := by
  cases shape with
  | sequence elements => exact .inl h
  | select options => exact .inl h
  | repetition body count => exact .inl h
  | fallback primary alternate =>
    simp only [Enters] at h
    split at h
    next => exact .inl ⟨h.1, by simp [Node.depthPreserving, h.2]⟩
    next hbound => exact .inr ⟨h.1, by omega, by simp [operands, h.2]⟩

namespace Graph

variable {graph : Graph α}

/-- With room for the rest of the order at this depth, and for the whole order at each depth that
is left, an expansion succeeds. -/
theorem emit_succeeds {σ : Type} [RandomSource σ] {order : List NodeId}
    (hordered : graph.Ordered (fun _ _ => False) order)
    (hclosed : ∀ id ∈ order, ∀ child ∈ graph.children id, child ∈ order)
    (hshapes : ∀ id ∈ order, ∀ shape, graph.node? id = some (.composite shape) →
      shape.IsSound ∧ shape.IsAlive)
    (mode : ExpansionMode) {nesting rounds : Nat} {tail : List NodeId} {depth : Int} {id : NodeId}
    (htail : tail <:+ order) (hid : id ∈ tail) (hrounds : mode.bound - depth ≤ rounds)
    (hnesting : rounds * order.length + tail.length ≤ nesting) :
    Succeeds (graph.emit mode nesting depth id : Sampling σ (List α)) := by
  induction nesting generalizing rounds tail depth id with
  | zero =>
    have hpos := List.length_pos_of_mem hid
    omega
  | succ nesting ih =>
    unfold emit
    split
    next => exact Succeeds.pure _
    next => exact Succeeds.pure _
    next shape hnode =>
      obtain ⟨hsound, halive⟩ := hshapes id (htail.subset hid) shape hnode
      refine Composite.expand_succeeds hsound halive fun entered child henters => ?_
      rcases henters.cases (α := α) with ⟨rfl, hchild⟩ | ⟨rfl, hless, hchild⟩
      · obtain ⟨rest, hsuffix, hlength, hlater⟩ := hordered.exists_suffix htail hid
        have hpreserving : child ∈ graph.depthPreserving id := by
          unfold depthPreserving
          rw [hnode]
          exact hchild
        have hrest : child ∈ rest := (hlater child hpreserving).resolve_right not_false
        exact ih hsuffix hrest hrounds (by omega)
      · obtain ⟨fewer, rfl⟩ : ∃ fewer, rounds = fewer + 1 := ⟨rounds - 1, by omega⟩
        have hchildren : child ∈ graph.children id := by
          rw [children_of_node? hnode]
          exact hchild
        have hpos := List.length_pos_of_mem hid
        have hfewer : mode.bound - (depth + 1) ≤ (fewer : Int) := by omega
        rw [Nat.succ_mul] at hnesting
        exact ih List.suffix_rfl (hclosed id (htail.subset hid) child hchildren) hfewer (by omega)

end Graph

namespace Registry

theorem validate_eq_ok {registry : Registry α} {mode : RepetitionMode} {report : Report}
    (h : registry.validate mode = .ok report) (hvalid : report.IsValid) :
    (∀ id ∈ registry.reachable, registry.problemsAt id = []) ∧ registry.unboundedCycles = [] := by
  unfold validate at h
  obtain ⟨cautions, _, hreport⟩ := bind_eq_ok h
  cases hreport
  obtain ⟨hnodes, hcycles⟩ := List.append_eq_nil_iff.mp hvalid
  exact ⟨List.flatMap_eq_nil_iff.mp hnodes, List.map_eq_nil_iff.mp hcycles⟩

theorem isAlive_of_problemsAt {registry : Registry α} {id : NodeId} {shape : Composite NodeId}
    (h : registry.problemsAt id = []) (hnode : registry.graph.node? id = some (.composite shape)) :
    shape.IsAlive := by
  rintro options rfl htotal
  unfold problemsAt at h
  rw [hnode] at h
  simp [htotal] at h

/-- The reachable nodes in an order in which no edge that keeps the depth leads back, if no cycle
is reported. -/
theorem exists_ordered_of_unboundedCycles {registry : Registry α}
    (h : registry.unboundedCycles = []) :
    ∃ order, registry.graph.Ordered (fun _ _ => False) order ∧
      (∀ id, id ∈ order ↔ registry.Reaches id) ∧ order.length = registry.reachableCount := by
  obtain ⟨order, hordered, hnodup, hmem⟩ := registry.exists_ordered
  have hnone : ∀ parent child, ¬registry.Closes parent child := by
    rintro parent child ⟨initial, hcycle⟩
    simp [h] at hcycle
  have hperm : order.Perm registry.reachable :=
    (List.perm_ext_iff_of_nodup hnodup (Graph.nodup_explore _ _ _)).mpr
      fun id => (hmem id).trans mem_reachable_iff.symm
  exact ⟨order, hordered.mono hnone, hmem, hperm.length_eq.trans registry.length_reachable⟩

/-- With room for one pass over the reachable nodes at each depth up to the bound, what can be
reached expands, whatever the draws. -/
theorem expand_of_isValid {registry : Registry α} {validated : RepetitionMode} {report : Report}
    (hsound : registry.IsSound) (hreport : registry.validate validated = .ok report)
    (hvalid : report.IsValid) {id : NodeId} (hid : registry.Reaches id) (mode : ExpansionMode)
    {σ : Type} [RandomSource σ] (source : σ) :
    ∃ values last, ∀ nesting, (mode.bound.toNat + 1) * registry.reachableCount ≤ nesting →
      (registry.graph.emit mode nesting 0 id).run source = .ok values last := by
  obtain ⟨hproblems, hcycles⟩ := validate_eq_ok hreport hvalid
  obtain ⟨order, hordered, hmem, hlength⟩ := exists_ordered_of_unboundedCycles hcycles
  have hclosed : ∀ node ∈ order, ∀ child ∈ registry.graph.children node, child ∈ order :=
    fun node hnode child hchild => (hmem child).mpr (.child ((hmem node).mp hnode) hchild)
  have hshapes : ∀ node ∈ order, ∀ shape,
      registry.graph.node? node = some (.composite shape) → shape.IsSound ∧ shape.IsAlive := by
    intro node hnode shape hshape
    have hreachable := mem_reachable_iff.mpr ((hmem node).mp hnode)
    exact ⟨hsound node shape hshape, isAlive_of_problemsAt (hproblems node hreachable) hshape⟩
  have hrounds : mode.bound - 0 ≤ (mode.bound.toNat : Int) := by omega
  have hroom : mode.bound.toNat * order.length + order.length ≤
      (mode.bound.toNat + 1) * registry.reachableCount := by
    rw [hlength, Nat.succ_mul]
  obtain ⟨values, last, hrun⟩ := Graph.emit_succeeds hordered hclosed hshapes mode
    List.suffix_rfl ((hmem id).mpr hid) hrounds hroom source
  refine ⟨values, last, fun nesting hnesting => ?_⟩
  have hmore := registry.graph.emit_mono mode hnesting 0 id source
  rw [hrun] at hmore
  exact hmore trivial

end Registry

namespace Session

/-- If a session is valid, every registered name expands, whatever the draws, the mode and the
bound of the depth, with room for one pass over the reachable nodes at each depth up to the bound. -/
theorem generate_of_isValid {policy : LiteralPolicy α} {settings : Settings} {entropy : Twister}
    {steps : List (Step α)} {report : Report}
    (hreport : (after policy settings entropy steps).grammar.validate = .ok report)
    (hvalid : report.IsValid) {name : String} {id : NodeId}
    (hname : (after policy settings entropy steps).registry.find? name = some id)
    {σ : Type} [RandomSource σ] (source : σ) :
    let reached := after policy settings entropy steps
    (∀ mode : ExpansionMode, ∃ values last, ∀ nesting,
      (mode.bound.toNat + 1) * reached.registry.reachableCount ≤ nesting →
        (reached.registry.graph.expand mode nesting id).run source = .ok values last) ∧
    ∀ generation : Settings, ∃ values last, ∀ nesting,
      (generation.maxDepth + 1) * reached.registry.reachableCount ≤ nesting →
        { reached.grammar with settings := generation }.generateWith nesting (some name) source =
          (.ok values, last) := by
  intro reached
  have hid : reached.registry.Reaches id := .root (Registry.mem_targets_iff.mpr ⟨name, hname⟩)
  have hexpand := fun mode =>
    Registry.expand_of_isValid (isSound_after policy settings entropy steps)
    hreport hvalid hid mode source
  refine ⟨hexpand, fun generation => ?_⟩
  obtain ⟨values, last, hruns⟩ := hexpand generation.expansionMode
  have hgrammar : { reached.grammar with settings := generation }.registry.find? name = some id :=
    hname
  exact ⟨values, last, fun nesting hnesting =>
    (Grammar.generateWith_eq_ok_iff hgrammar nesting source last values).mpr
      (hruns nesting hnesting)⟩

/-- A list that ends by its fallback: four nodes can be reached. -/
theorem generate_of_isValid_of_recursive_fallback :
    let reached := after (.every id) {} (.ofSeed 0) [Step.compile "s" "a & s -> b"]
    reached.grammar.validate = .ok ⟨[], []⟩ ∧ (Report.mk [] []).IsValid ∧
      reached.registry.find? "s" = some 4 ∧ reached.registry.reachable.length = 4 ∧
      ∀ generation : Settings, ∃ values last, ∀ nesting,
        (generation.maxDepth + 1) * reached.registry.reachableCount ≤ nesting →
          { reached.grammar with settings := generation }.generateWith nesting (some "s")
            (Script.ofList []) = (.ok values, last) := by
  intro reached
  have hreport : reached.grammar.validate = .ok ⟨[], []⟩ := by decide +kernel
  have hvalid : (Report.mk [] []).IsValid := rfl
  have hname : reached.registry.find? "s" = some 4 := by decide +kernel
  exact ⟨hreport, hvalid, hname, by decide +kernel,
    (generate_of_isValid hreport hvalid hname (Script.ofList [])).2⟩

end Session

end StochasticGrammar
