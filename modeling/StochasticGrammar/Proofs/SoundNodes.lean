import StochasticGrammar.Proofs.Session

namespace StochasticGrammar

variable {α : Type}

namespace Registry

def IsSound (registry : Registry α) : Prop :=
  ∀ id shape, registry.graph.node? id = some (.composite shape) → shape.IsSound

/-- A registration leaves every node with its form. -/
theorem exists_sameForm_of_install {registry : Registry α} {name : String} {id place : NodeId}
    {shape : Composite NodeId}
    (h : (registry.install name id).graph.node? place = some (.composite shape)) :
    ∃ before, registry.graph.node? place = some (.composite before) ∧ before.SameForm shape := by
  have hself : ∀ {first : Composite NodeId}, first.SameForm first := ⟨rfl, rfl, rfl, rfl⟩
  cases hname : registry.find? name with
  | none =>
    rw [graph_install_of_none id hname] at h
    exact ⟨shape, h, hself⟩
  | some old =>
    by_cases hold : old = id
    · subst hold
      rw [graph_install_of_eq hname] at h
      exact ⟨shape, h, hself⟩
    · rw [node?_install_of_ne hname hold] at h
      split at h
      next =>
        obtain ⟨node, hnode, hsubstitute⟩ := Option.map_eq_some_iff.mp h
        cases node with
        | leaf value => cases hsubstitute
        | composite before =>
          cases hsubstitute
          exact ⟨before, hnode, before.sameForm_map _⟩
      next => exact ⟨shape, h, hself⟩

namespace IsSound

variable {registry grown later : Registry α} {policy : LiteralPolicy α}

theorem install (h : registry.IsSound) (name : String) (id : NodeId) :
    (registry.install name id).IsSound := by
  intro place shape hshape
  obtain ⟨before, hbefore, hform⟩ := exists_sameForm_of_install hshape
  exact hform.isSound (h place before hbefore)

theorem define (h : registry.IsSound) (name : String) {node : Node α}
    (hnode : ∀ shape, node = .composite shape → shape.IsSound) :
    (registry.define name node).2.IsSound := by
  have hadded : (registry.add node).2.IsSound := by
    intro id shape hshape
    have hsplit := (Graph.node?_add registry.graph node id).symm.trans hshape
    split at hsplit
    next => exact hnode shape (Option.some.inj hsplit)
    next => exact h id shape hsplit
  exact hadded.install name _

theorem define_composite (h : registry.IsSound) (name : String) {text : String}
    {shape : Composite String} {found : Composite NodeId}
    (hread : Rule.read text = .ok (.composite shape)) (hfound : registry.Resolves shape found) :
    (registry.define name (.composite found)).2.IsSound := by
  refine h.define name fun other hother => ?_
  cases hother
  exact hfound.form.isSound (Rule.read_eq_composite hread).1

theorem define_leaf (h : registry.IsSound) (name : String) (value : α) :
    (registry.define name (.leaf value)).2.IsSound :=
  h.define name fun shape hshape => by cases hshape

theorem grows {bound : Nat} (h : registry.IsSound) (hgrows : Grows policy bound registry grown) :
    grown.IsSound := by
  induction hgrows with
  | refl => exact h
  | tail _ hstep ih =>
    cases hstep with
    | literal _ _ _ _ => exact ih.define_leaf _ _
    | composite _ _ hread hfound => exact ih.define_composite _ hread hfound

theorem defines {step : Step α} (h : registry.IsSound)
    (hstep : Defines policy registry step later) : later.IsSound := by
  cases hstep with
  | terminal => exact h.define_leaf _ _
  | compile hbuilt =>
    cases hbuilt with
    | bare _ hgrows _ => exact (h.grows hgrows).install _ _
    | composite hread hgrows hfound => exact (h.grows hgrows).define_composite _ hread hfound

end IsSound

end Registry

/-- In every state of a session all composites are sound. -/
theorem Session.isSound_after (policy : LiteralPolicy α) (settings : Settings) (entropy : Twister)
    (steps : List (Step α)) : (after policy settings entropy steps).registry.IsSound := by
  refine registry_invariant ?_ Registry.IsSound.defines Registry.IsSound.grows policy settings
    entropy steps
  intro id shape hshape
  simp [Registry.empty, Graph.empty, Graph.node?] at hshape

end StochasticGrammar
