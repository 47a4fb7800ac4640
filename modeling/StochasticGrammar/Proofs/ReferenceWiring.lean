import StochasticGrammar.Proofs.ReferenceLinks
import StochasticGrammar.Proofs.Session

namespace StochasticGrammar

variable {α : Type}

/-- Names have nodes of the table, definitions are those of registered names, and the composites
among them are followed with each reference replaced by the name that leads it. -/
structure Wired (leader : String → String → String) (table : Table α) (registry : Registry α) :
    Prop where
  bounded : ∀ name id, registry.find? name = some id → id < registry.graph.nodes.size
  undefined : ∀ name, registry.find? name = none → table.lookup name = none
  follows : ∀ name id text shape, registry.find? name = some id →
    table.latest name = .text text → Rule.read text = .ok (.composite shape) →
    registry.Follows (shape.map (leader name)) id

/-- A name that is not registered yet starts with its references. -/
def Registry.renew (registry : Registry α) (leader : String → String → String)
    (name reference : String) : String :=
  if registry.find? name = none then reference else leader name reference

namespace Wired

variable {leader leader' : String → String → String} {table : Table α} {registry later : Registry α}

theorem congr (h : Wired leader table registry)
    (hleader : ∀ name id reference, registry.find? name = some id →
      leader name reference = leader' name reference) : Wired leader' table registry where
  bounded := h.bounded
  undefined := h.undefined
  follows name id text shape hname hlatest hread := by
    have heq : leader name = leader' name := funext fun reference => hleader name id reference hname
    rw [← heq]
    exact h.follows name id text shape hname hlatest hread

theorem renew (h : Wired leader table registry) : Wired (registry.renew leader) table registry := by
  refine h.congr fun name id reference hname => ?_
  rw [Registry.renew, if_neg]
  simp [hname]

theorem add (h : Wired leader table registry) (node : Node α) :
    Wired leader table (registry.add node).2 where
  bounded name id hname := by
    have hsize : (registry.add node).2.graph.nodes.size = registry.graph.nodes.size + 1 :=
      Array.size_push _
    rw [hsize]
    exact Nat.lt_succ_of_lt (h.bounded name id hname)
  undefined := h.undefined
  follows name id text shape hname hlatest hread :=
    (h.follows name id text shape hname hlatest hread).mono
      (fun _ hnode => Registry.node?_add_of_some hnode node) fun _ _ h => h

/-- A definition gives its name the links of its references and hands all links over. -/
theorem install {changed : Table α} (h : Wired leader table registry) {name : String} {id : NodeId}
    (htable : ∀ other, other ≠ name → changed.lookup other = table.lookup other)
    (hid : id < registry.graph.nodes.size)
    (hnode : ∀ text shape, changed.latest name = .text text →
      Rule.read text = .ok (.composite shape) → registry.Follows shape id) :
    Wired (fun other reference => registry.handOver (registry.install name id) name
        (if other = name then reference else leader other reference))
      changed (registry.install name id) where
  bounded other place hother := by
    rw [Registry.size_install]
    rw [Registry.find?_install] at hother
    split at hother
    next => cases hother; exact hid
    next => exact h.bounded other place hother
  undefined other hother := by
    rw [Registry.find?_install] at hother
    split at hother
    next => cases hother
    next hne =>
      rw [htable other hne]
      exact h.undefined other hother
  follows other place text shape hother hlatest hread := by
    have hbefore : registry.Follows
        (shape.map fun reference => if other = name then reference else leader other reference)
        place := by
      by_cases hname : other = name
      · subst hname
        rw [Registry.find?_install, if_pos rfl] at hother
        cases hother
        rw [Composite.map_eq_self fun _ => if_pos rfl]
        exact hnode text shape hlatest hread
      · rw [Registry.find?_install, if_neg hname] at hother
        have hsame : table.latest other = .text text := by
          unfold Table.latest at hlatest ⊢
          rw [← htable other hname]
          exact hlatest
        simp only [hname, ↓reduceIte]
        exact h.follows other place text shape hother hsame hread
    have hafter := hbefore.install name id hother
    rw [Composite.map_map] at hafter
    exact hafter

theorem define (h : Wired leader table registry) {new : String} {node : Node α}
    (hnew : registry.find? new = none) (hleader : ∀ reference, leader new reference = reference)
    (hnode : ∀ shape, Rule.read new = .ok (.composite shape) →
      (registry.add node).2.Follows shape registry.graph.nodes.size) :
    Wired leader table (registry.define new node).2 := by
  have hsize := Graph.lt_size_of_node? (registry.node?_add_size node)
  refine ((h.add node).install (fun _ _ => rfl) hsize ?_).congr ?_
  · intro text shape hlatest hread
    rw [Table.latest_of_lookup_eq_none (h.undefined new hnew)] at hlatest
    cases hlatest
    exact hnode shape hread
  · intro name id reference _
    have hnone : (registry.add node).2.find? new = none := hnew
    rw [Registry.handOver_of_not_parts]
    · split
      next heq => rw [heq, hleader]
      next => rfl
    · rintro ⟨_, old, hold, _⟩
      rw [hnone] at hold
      cases hold

theorem registers {policy : LiteralPolicy α} {bound : Nat} (h : Wired leader table registry)
    (hleader : ∀ name reference, registry.find? name = none → leader name reference = reference)
    (hstep : Registers policy bound registry later) : Wired leader table later := by
  cases hstep with
  | @literal name _ _ hnew _ hread _ =>
    refine h.define hnew (fun reference => hleader name reference hnew) fun shape hshape => ?_
    rw [hread] at hshape
    cases hshape
  | @composite name _ _ hnew _ hread hfound =>
    refine h.define hnew (fun reference => hleader name reference hnew) fun other hother => ?_
    rw [hread] at hother
    cases hother
    exact hfound.follows_add

/-- Names that are registered on the way start with their references; all others keep their links. -/
theorem grows {policy : LiteralPolicy α} {bound : Nat} (h : Wired leader table registry)
    (hgrows : Grows policy bound registry later) : Wired (registry.renew leader) table later := by
  induction hgrows with
  | refl => exact h.renew
  | tail hprevious hstep ih =>
    refine ih.registers (fun name reference hnew => if_pos ?_) hstep
    refine Option.eq_none_iff_forall_ne_some.mpr fun id hname => ?_
    rw [Grows.find?_eq_some hprevious hname] at hnew
    cases hnew

/-- The nodes of new names are not shared. -/
theorem find?_eq_some_of_shared {policy : LiteralPolicy α} {bound : Nat}
    (h : Wired leader table registry) (hgrows : Grows policy bound registry later)
    {first second : String} {id : NodeId} (hne : first ≠ second)
    (hfirst : later.find? first = some id) (hsecond : later.find? second = some id) :
    registry.find? first = some id ∧ registry.find? second = some id := by
  induction hgrows with
  | refl => exact ⟨hfirst, hsecond⟩
  | @tail between last hprevious hstep ih =>
    have hbounded := (h.grows hprevious).bounded
    obtain ⟨new, node, _, _, rfl⟩ := hstep.exists_define
    rw [Registry.find?_define] at hfirst hsecond
    split at hfirst
    next hnew =>
      cases hfirst
      rw [if_neg fun hother => hne (hnew.trans hother.symm)] at hsecond
      exact absurd (hbounded second _ hsecond) (Nat.lt_irrefl _)
    next =>
      split at hsecond
      next =>
        cases hsecond
        exact absurd (hbounded first _ hfirst) (Nat.lt_irrefl _)
      next => exact ih hfirst hsecond

end Wired

end StochasticGrammar
