import StochasticGrammar.Proofs.RegistryClosure

namespace StochasticGrammar

variable {α : Type}

namespace Node

/-- Leaves of one value, or composites that are equal but for their operands. -/
inductive SameForm : Node α → Node α → Prop
  | leaf (value : α) : SameForm (.leaf value) (.leaf value)
  | composite {first second : Composite NodeId} :
      first.SameForm second → SameForm (.composite first) (.composite second)

theorem SameForm.refl (node : Node α) : node.SameForm node := by
  cases node with
  | leaf value => exact .leaf value
  | composite shape => exact .composite ⟨rfl, rfl, rfl, rfl⟩

/-- The same form, and operands that are the same or have been changed for certain others. -/
def Exchanges (change : NodeId → NodeId → Prop) (node later : Node α) : Prop :=
  node.SameForm later ∧
    List.Forall₂ (fun child next => next = child ∨ change child next) node.children later.children

theorem Exchanges.refl {change : NodeId → NodeId → Prop} (node : Node α) :
    node.Exchanges change node :=
  ⟨.refl node, List.forall₂_same.mpr fun _ _ => .inl rfl⟩

theorem sameForm_substitute (old new : NodeId) (node : Node α) :
    node.SameForm (node.substitute old new) := by
  cases node with
  | leaf value => exact .leaf value
  | composite shape => exact .composite (shape.sameForm_map _)

end Node

theorem count_map_exchange {old new : NodeId} (hne : old ≠ new) (children : List NodeId) :
    (children.map fun child => if child = old then new else child).count new =
      children.count new + children.count old := by
  induction children with
  | nil => rfl
  | cons first rest ih =>
    rw [List.map_cons, List.count_cons, List.count_cons, List.count_cons, ih]
    by_cases hfirst : first = old
    · subst hfirst
      simp [hne]
      omega
    · simp [hfirst]
      omega

/-- A substitution leaves no place to the old operand, and as many more to the new one as it counts;
no other node changes. -/
theorem Graph.substituteChild_counts (graph : Graph α) {old new : NodeId} (hne : old ≠ new)
    (id : NodeId) :
    let (swapped, later) := graph.substituteChild old new id
    old ∉ later.children id ∧
      (later.children id).count new = (graph.children id).count new + swapped ∧
      ∀ place, place ≠ id → later.node? place = graph.node? place := by
  have hnode := graph.node?_substituteAt old new id id
  rw [if_pos rfl] at hnode
  simp only [substituteChild]
  rw [children_of_substitute hnode]
  refine ⟨not_mem_map_exchange hne _, count_map_exchange hne _, fun place hplace => ?_⟩
  rw [node?_substituteAt, if_neg hplace.symm]

namespace Registry

variable {registry : Registry α} {name : String} {old new : NodeId}

theorem replace?_eq_install (h : registry.find? name = some old) (id : NodeId) :
    registry.replace? name id = some (registry.install name id) := by
  unfold replace?
  rw [h, install_of_some id h]
  rfl

theorem names_install_of_some (h : registry.find? name = some old) (id : NodeId) :
    (registry.install name id).names = registry.names := by
  rw [install_of_some id h]
  split
  next => rfl
  next => exact map_fst_retarget name id registry.entries

/-- A node that is registered after a name has left its old node has the operands that it had, with
the new node wherever the old one stood. -/
theorem exists_node?_install_of_ne (h : registry.find? name = some old) (hne : old ≠ new)
    {place : NodeId} (hplace : place ∈ (registry.install name new).targets) {node : Node α}
    (hnode : registry.graph.node? place = some node) :
    ∃ later, (registry.install name new).graph.node? place = some later ∧ node.SameForm later ∧
      later.children = node.children.map fun child => if child = old then new else child := by
  refine ⟨node.substitute old new, ?_, node.sameForm_substitute old new,
    Node.children_substitute old new node⟩
  rw [node?_install_of_ne h hne, if_pos hplace, hnode]
  rfl

/-- Registering a name changes operands only where they were the node that the name had. -/
theorem exists_node?_install (registry : Registry α) (name : String) (id : NodeId) {place : NodeId}
    {node : Node α} (hnode : registry.graph.node? place = some node) :
    ∃ later, (registry.install name id).graph.node? place = some later ∧
      node.Exchanges (fun child next => registry.find? name = some child ∧ next = id) later := by
  have hkept : (registry.install name id).graph.node? place = some node →
      ∃ later, (registry.install name id).graph.node? place = some later ∧
        node.Exchanges (fun child next => registry.find? name = some child ∧ next = id) later :=
    fun hlater => ⟨node, hlater, .refl node⟩
  cases hname : registry.find? name with
  | none => exact hname ▸ hkept (by rw [graph_install_of_none id hname, hnode])
  | some old =>
    by_cases hold : old = id
    · subst hold
      exact hname ▸ hkept (by rw [graph_install_of_eq hname, hnode])
    · by_cases hplace : place ∈ (registry.install name id).targets
      · obtain ⟨later, hlater, hform, hchildren⟩ :=
          exists_node?_install_of_ne hname hold hplace hnode
        refine ⟨later, hlater, hform, ?_⟩
        rw [hchildren, List.forall₂_map_right_iff, List.forall₂_same]
        intro child _
        by_cases hchild : child = old
        · exact .inr ⟨by rw [hchild], if_pos hchild⟩
        · exact .inl (if_neg hchild)
      · exact hname ▸ hkept (by rw [node?_install_of_ne hname hold, if_neg hplace, hnode])

/-- Replacing the node of a name binds that name anew and no other. Every node that is registered
then keeps its form and has the new node in place of the old one among its operands; all others are
as they were. -/
theorem replace?_exchanges (hname : registry.find? name = some old) (hne : old ≠ new) :
    ∃ after, registry.replace? name new = some after ∧
      after.names = registry.names ∧
      (∀ other, after.find? other = if other = name then some new else registry.find? other) ∧
      (∀ id, id ∈ after.targets ↔
        id = new ∨ ∃ other, other ≠ name ∧ registry.find? other = some id) ∧
      after.graph.nodes.size = registry.graph.nodes.size ∧
      (∀ id ∈ after.targets, ∀ node, registry.graph.node? id = some node →
        ∃ later, after.graph.node? id = some later ∧ node.SameForm later ∧
          later.children = node.children.map fun child => if child = old then new else child) ∧
      (∀ id, id ∉ after.targets → after.graph.node? id = registry.graph.node? id) ∧
      ∀ id ∈ after.targets, old ∉ after.graph.children id := by
  refine ⟨registry.install name new, replace?_eq_install hname new, names_install_of_some hname new,
    registry.find?_install name new, registry.mem_targets_install_iff name new,
    registry.size_install name new, ?_, ?_, ?_⟩
  · exact fun id hid node hnode => exists_node?_install_of_ne hname hne hid hnode
  · intro id hid
    rw [node?_install_of_ne hname hne, if_neg hid]
  · exact fun id hid => not_mem_children_install hname hne hid

/-- The old node refers to itself and keeps a name; the new one refers to it, and so does a node
without a name. -/
theorem replace?_exchanges_in_cycle :
    let registry : Registry String :=
      { graph := ⟨#[.leaf "x", .composite (.sequence [1, 0, 1]), .composite (.fallback 1 2),
          .composite (.repetition 1 .half), .composite (.select [(1, .half), (4, 0), (1, 0)])]⟩
        entries := [("a", 1), ("b", 4), ("c", 4), ("d", 1)]
        names_nodup := by decide }
    registry.find? "a" = some 1 ∧ 1 ≠ 2 ∧
      ∃ after, registry.replace? "a" 2 = some after ∧
        after.find? "a" = some 2 ∧ after.find? "d" = some 1 ∧
        after.graph.children 1 = [2, 0, 2] ∧ after.graph.children 2 = [2, 2] ∧
        after.graph.node? 3 = some (.composite (.repetition 1 .half)) ∧
        ∀ id ∈ after.targets, 1 ∉ after.graph.children id := by
  intro registry
  have hname : registry.find? "a" = some 1 := by decide +kernel
  have halias : registry.find? "d" = some 1 := by decide +kernel
  obtain ⟨after, hreplace, _, hfind, htargets, _, hnodes, hothers, hnone⟩ :=
    registry.replace?_exchanges hname (show 1 ≠ 2 by decide)
  have hold : 1 ∈ after.targets := (htargets 1).mpr (.inr ⟨"d", by decide, halias⟩)
  have hunnamed : 3 ∉ after.targets := by
    rw [htargets]
    rintro (heq | ⟨other, _, hother⟩)
    · cases heq
    · have hmem : 3 ∈ registry.targets := mem_targets_iff.mpr ⟨other, hother⟩
      revert hmem
      decide
  have hchildren : ∀ id ∈ after.targets, ∀ node, registry.graph.node? id = some node →
      after.graph.children id = node.children.map fun child => if child = 1 then 2 else child := by
    intro id hid node hnode
    obtain ⟨later, hlater, _, heq⟩ := hnodes id hid node hnode
    simpa [Graph.children, hlater] using heq
  refine ⟨hname, by decide, after, hreplace, by rw [hfind, if_pos rfl], ?_, ?_, ?_, ?_, hnone⟩
  · rw [hfind, if_neg (by decide), halias]
  · exact hchildren 1 hold _ rfl
  · exact hchildren 2 ((htargets 2).mpr (.inl rfl)) _ rfl
  · exact hothers 3 hunnamed

end Registry

end StochasticGrammar
