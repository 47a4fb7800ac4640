import StochasticGrammar.Proofs.LeadingNames
import StochasticGrammar.Proofs.ReachableNodes

namespace StochasticGrammar

variable {α : Type}

theorem Node.children_substitute (old new : NodeId) (node : Node α) :
    (node.substitute old new).children =
      node.children.map fun child => if child = old then new else child := by
  cases node with
  | leaf value => rfl
  | composite shape => exact shape.operands_map _

theorem Graph.children_of_substitute {graph later : Graph α} {old new id : NodeId}
    (h : later.node? id = (graph.node? id).map (Node.substitute old new)) :
    later.children id =
      (graph.children id).map fun child => if child = old then new else child := by
  unfold children
  rw [h]
  cases graph.node? id with
  | none => rfl
  | some node => exact node.children_substitute old new

theorem not_mem_map_exchange {old new : NodeId} (hne : old ≠ new) (children : List NodeId) :
    old ∉ children.map fun child => if child = old then new else child := by
  intro hmem
  obtain ⟨child, _, hchild⟩ := List.mem_map.mp hmem
  split at hchild
  next => exact hne hchild.symm
  next hother => exact hother hchild

namespace Registry

/-- Registered nodes are in the table of nodes, and so are their operands under some name. -/
structure IsClosed (registry : Registry α) : Prop where
  bounded : ∀ id ∈ registry.targets, id < registry.graph.nodes.size
  children : ∀ id ∈ registry.targets, ∀ child ∈ registry.graph.children id,
    child ∈ registry.targets

variable {registry grown later : Registry α} {policy : LiteralPolicy α}

/-- The operands of the nodes registered after a name has got another node. -/
theorem children_install_of_ne {name : String} {old id place : NodeId}
    (h : registry.find? name = some old) (hne : old ≠ id)
    (hplace : place ∈ (registry.install name id).targets) :
    (registry.install name id).graph.children place =
      (registry.graph.children place).map fun child => if child = old then id else child := by
  have hnode := node?_install_of_ne h hne place
  rw [if_pos hplace] at hnode
  exact Graph.children_of_substitute hnode

theorem not_mem_children_install {name : String} {old id place : NodeId}
    (h : registry.find? name = some old) (hne : old ≠ id)
    (hplace : place ∈ (registry.install name id).targets) :
    old ∉ (registry.install name id).graph.children place := by
  rw [children_install_of_ne h hne hplace]
  exact not_mem_map_exchange hne _

theorem children_add_of_ne {id : NodeId} (h : id ≠ registry.graph.nodes.size) (node : Node α) :
    (registry.add node).2.graph.children id = registry.graph.children id := by
  have hnode : (registry.add node).2.graph.node? id = registry.graph.node? id :=
    (Graph.node?_add registry.graph node id).trans (if_neg h)
  unfold Graph.children
  rw [hnode]

theorem Resolves.mem_targets {shape : Composite String} {found : Composite NodeId}
    (h : registry.Resolves shape found) {id : NodeId} (hid : id ∈ found.operands) :
    id ∈ registry.targets := by
  have hsome : some id ∈ shape.operands.map registry.find? := by
    rw [← h.operands]
    exact List.mem_map_of_mem hid
  obtain ⟨reference, _, hreference⟩ := List.mem_map.mp hsome
  exact mem_targets_iff.mpr ⟨reference, hreference⟩

namespace IsClosed

theorem add (h : registry.IsClosed) (node : Node α) : (registry.add node).2.IsClosed where
  bounded id hid := by
    have hsize : (registry.add node).2.graph.nodes.size = registry.graph.nodes.size + 1 :=
      Array.size_push _
    rw [hsize]
    exact Nat.lt_succ_of_lt (h.bounded id hid)
  children id hid child hchild := by
    rw [children_add_of_ne (Nat.ne_of_lt (h.bounded id hid))] at hchild
    exact h.children id hid child hchild

theorem install (h : registry.IsClosed) {id : NodeId} (hbounded : id < registry.graph.nodes.size)
    (hid : ∀ child ∈ registry.graph.children id, child ∈ registry.targets) (name : String) :
    (registry.install name id).IsClosed := by
  have hmem := registry.mem_targets_install_iff name id
  have hsplit : ∀ place ∈ (registry.install name id).targets,
      place = id ∨ place ∈ registry.targets := by
    intro place hplace
    exact ((hmem place).mp hplace).imp_right fun ⟨other, _, hother⟩ =>
      mem_targets_iff.mpr ⟨other, hother⟩
  have hkept : ∀ other ∈ registry.targets, registry.find? name ≠ some other →
      other ∈ (registry.install name id).targets := by
    intro other hregistered hother
    obtain ⟨kept, hfind⟩ := mem_targets_iff.mp hregistered
    refine (hmem other).mpr (.inr ⟨kept, ?_, hfind⟩)
    rintro rfl
    exact hother hfind
  refine ⟨fun place hplace => ?_, fun place hplace child hchild => ?_⟩
  · rw [size_install]
    rcases hsplit place hplace with rfl | hbefore
    · exact hbounded
    · exact h.bounded place hbefore
  · have hregistered : ∀ other ∈ registry.graph.children place, other ∈ registry.targets := by
      rcases hsplit place hplace with rfl | hbefore
      · exact hid
      · exact h.children place hbefore
    cases hname : registry.find? name with
    | none =>
      rw [graph_install_of_none id hname] at hchild
      exact hkept child (hregistered child hchild) (by simp [hname])
    | some old =>
      by_cases hold : old = id
      · subst hold
        rw [graph_install_of_eq hname] at hchild ⊢
        exact hregistered child hchild
      · rw [children_install_of_ne hname hold hplace] at hchild
        obtain ⟨before, hbefore, hsame⟩ := List.mem_map.mp hchild
        split at hsame
        next =>
          subst hsame
          exact (hmem _).mpr (.inl rfl)
        next hother =>
          subst hsame
          refine hkept before (hregistered before hbefore) ?_
          rw [hname]
          exact fun heq => hother (Option.some.inj heq).symm

theorem define (h : registry.IsClosed) {node : Node α}
    (hnode : ∀ child ∈ node.children, child ∈ registry.targets) (name : String) :
    (registry.define name node).2.IsClosed := by
  have hadded := registry.node?_add_size node
  refine (h.add node).install (Graph.lt_size_of_node? hadded) ?_ name
  intro child hchild
  rw [Graph.children_of_node? hadded] at hchild
  exact hnode child hchild

theorem grows {bound : Nat} (h : registry.IsClosed) (hgrows : Grows policy bound registry grown) :
    grown.IsClosed := by
  induction hgrows with
  | refl => exact h
  | tail _ hstep ih =>
    cases hstep with
    | literal _ _ _ _ => exact ih.define (by simp [Node.children]) _
    | composite _ _ _ hfound => exact ih.define (fun _ => hfound.mem_targets) _

theorem defines {step : Step α} (h : registry.IsClosed)
    (hstep : Defines policy registry step later) : later.IsClosed := by
  cases hstep with
  | terminal => exact h.define (by simp [Node.children]) _
  | compile hbuilt =>
    cases hbuilt with
    | bare _ hgrows hfound =>
      have hgrown := h.grows hgrows
      have hid := mem_targets_iff.mpr ⟨_, hfound⟩
      exact hgrown.install (hgrown.bounded _ hid) (hgrown.children _ hid) _
    | composite _ hgrows hfound => exact (h.grows hgrows).define (fun _ => hfound.mem_targets) _

/-- What can be reached in a closed registry is registered. -/
theorem mem_targets_of_reaches (h : registry.IsClosed) {id : NodeId} (hid : registry.Reaches id) :
    id ∈ registry.targets :=
  Graph.Reaches.mem_of_closed (fun _ hroot => hroot) h.children hid

end IsClosed

end Registry

namespace Session

theorem isClosed_after (policy : LiteralPolicy α) (settings : Settings) (entropy : Twister)
    (steps : List (Step α)) :
    (after policy settings entropy steps).registry.IsClosed := by
  refine registry_invariant ⟨?_, ?_⟩ Registry.IsClosed.defines Registry.IsClosed.grows policy
    settings entropy steps
  · intro id hid
    cases hid
  · intro id hid
    cases hid

/-- A step that gives a registered name another node ends with the registration of that name. -/
theorem exists_install_of_find?_ne {session : Session α} {step : Step α} {name : String}
    {old new : NodeId} (hold : session.registry.find? name = some old)
    (hnew : (session.perform step).registry.find? name = some new) (hne : new ≠ old) :
    ∃ (bound : Nat) (grown base : Registry α),
      Grows session.grammar.policy bound session.registry grown ∧
      (∀ other, base.find? other = grown.find? other) ∧
      (session.perform step).registry = base.install name new := by
  rcases session.perform_cases step with ⟨_, _, hdefines⟩ | ⟨_, _, bound, hgrows⟩
  · obtain ⟨bound, grown, base, id, hgrows, hbase, hlater⟩ := hdefines.exists_install
    rw [hlater, Registry.find?_install] at hnew
    split at hnew
    next hname =>
      cases hnew
      rw [hname]
      exact ⟨bound, grown, base, hgrows, hbase, hlater⟩
    next =>
      rw [hbase, hgrows.find?_eq_some hold] at hnew
      exact absurd (Option.some.inj hnew).symm hne
  · rw [hgrows.find?_eq_some hold] at hnew
    exact absurd (Option.some.inj hnew).symm hne

/-- In every state of a session the children of registered nodes are registered. When a step gives
a name another node, no node that can be reached refers to the old one any more, which can itself
be reached only under other names that it had before. -/
theorem children_registered (policy : LiteralPolicy α) (settings : Settings) (entropy : Twister)
    (steps : List (Step α)) :
    let reached := after policy settings entropy steps
    (∀ name id, reached.registry.find? name = some id →
      ∀ child ∈ reached.registry.graph.children id,
        ∃ other, reached.registry.find? other = some child) ∧
    ∀ step name old new, reached.registry.find? name = some old →
      (reached.perform step).registry.find? name = some new → new ≠ old →
      (∀ id, (reached.perform step).registry.Reaches id →
        old ∉ (reached.perform step).registry.graph.children id) ∧
      ((reached.perform step).registry.Reaches old →
        ∃ other, other ≠ name ∧ reached.registry.find? other = some old ∧
          (reached.perform step).registry.find? other = some old) := by
  intro reached
  have hclosed : reached.registry.IsClosed := isClosed_after policy settings entropy steps
  refine ⟨fun name id hname child hchild => ?_, fun step name old new hold hnew hne => ?_⟩
  · have hid : id ∈ reached.registry.targets := Registry.mem_targets_iff.mpr ⟨name, hname⟩
    exact Registry.mem_targets_iff.mp (hclosed.children id hid child hchild)
  · have hlater : (reached.perform step).registry.IsClosed := by
      have hafter := isClosed_after policy settings entropy (steps ++ [step])
      rwa [after_concat] at hafter
    obtain ⟨bound, grown, base, hgrows, hbase, hinstall⟩ :=
      exists_install_of_find?_ne hold hnew hne
    have hbefore : base.find? name = some old := (hbase name).trans (hgrows.find?_eq_some hold)
    refine ⟨fun id hid => ?_, fun hreached => ?_⟩
    · have htarget := hlater.mem_targets_of_reaches hid
      rw [hinstall] at htarget ⊢
      exact Registry.not_mem_children_install hbefore hne.symm htarget
    · obtain ⟨other, hother⟩ :=
        Registry.mem_targets_iff.mp (hlater.mem_targets_of_reaches hreached)
      have hdifferent : other ≠ name := by
        rintro rfl
        exact hne (Option.some.inj (hnew.symm.trans hother))
      have hgrown : grown.find? other = some old := by
        rw [hinstall, Registry.find?_install, if_neg hdifferent, hbase] at hother
        exact hother
      have hshared := (wired_after policy settings entropy steps).find?_eq_some_of_shared hgrows
        hdifferent hgrown (hgrows.find?_eq_some hold)
      exact ⟨other, hdifferent, hshared.1, hother⟩

/-- A rule with another name is redefined by a text that refers to itself. -/
theorem children_registered_after_self_reference :
    let steps : List (Step String) :=
      [.compile "a" "b & c", .compile "d" "a", .compile "s" "a & a # 2"]
    let reached := after (.every id) {} (.ofSeed 0) steps
    let last := reached.perform (.compile "a" "x & a -> b")
    reached.registry.find? "a" = some 2 ∧ last.registry.find? "a" = some 7 ∧
      last.registry.find? "d" = some 2 ∧ last.registry.graph.children 7 = [6, 0] ∧
      (∀ id, last.registry.Reaches id → 2 ∉ last.registry.graph.children id) ∧
      ∃ other, other ≠ "a" ∧ reached.registry.find? other = some 2 ∧
        last.registry.find? other = some 2 := by
  intro steps reached last
  have hold : reached.registry.find? "a" = some 2 := by decide +kernel
  have hnew : last.registry.find? "a" = some 7 := by decide +kernel
  have halias : last.registry.find? "d" = some 2 := by decide +kernel
  obtain ⟨hunused, hnamed⟩ := (children_registered (.every id) {} (.ofSeed 0) steps).2
    (.compile "a" "x & a -> b") "a" 2 7 hold hnew (by decide)
  have hreached : last.registry.Reaches 2 :=
    .root (Registry.mem_targets_iff.mpr ⟨"d", halias⟩)
  exact ⟨hold, hnew, halias, by decide +kernel, hunused, hnamed hreached⟩

end Session

end StochasticGrammar
