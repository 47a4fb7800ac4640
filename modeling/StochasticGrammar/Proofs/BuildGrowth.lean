import StochasticGrammar.Compile.Build
import StochasticGrammar.Proofs.RegistryInstall
import StochasticGrammar.Proofs.RuleReading
import Mathlib.Logic.Relation

namespace StochasticGrammar

variable {α : Type}

/-- A composite of nodes has the form of a composite of names, and its operands are the nodes that
are registered under the names. -/
structure Registry.Resolves (registry : Registry α) (shape : Composite String)
    (found : Composite NodeId) : Prop where
  form : shape.SameForm found
  operands : found.operands.map some = shape.operands.map registry.find?

/-- One registration on the way: a name shorter than the bound that is not registered yet gets the
node of its own text. -/
inductive Registers (policy : LiteralPolicy α) (bound : Nat) (registry : Registry α) :
    Registry α → Prop
  | literal {name : String} {asked : List String} {value : α} :
      registry.find? name = none → name.length < bound →
      Rule.read name = .ok (.bare name) → policy.answer asked name = some value →
      Registers policy bound registry (registry.define name (.leaf value)).2
  | composite {name : String} {shape : Composite String} {found : Composite NodeId} :
      registry.find? name = none → name.length < bound →
      Rule.read name = .ok (.composite shape) → registry.Resolves shape found →
      Registers policy bound registry (registry.define name (.composite found)).2

/-- Any number of registrations on the way. -/
def Grows (policy : LiteralPolicy α) (bound : Nat) : Registry α → Registry α → Prop :=
  Relation.ReflTransGen (Registers policy bound)

/-- A whole build of a text under a name. A bare rule shares the node of its reference; a composite
gets a node of its own, whose operands were registered before it. -/
inductive Built (policy : LiteralPolicy α) (registry : Registry α) (name text : String) :
    NodeId → Registry α → Prop
  | bare {grown : Registry α} {id : NodeId} :
      Rule.read text = .ok (.bare text) → Grows policy (text.length + 1) registry grown →
      grown.find? text = some id → Built policy registry name text id (grown.install name id)
  | composite {shape : Composite String} {found : Composite NodeId} {grown : Registry α} :
      Rule.read text = .ok (.composite shape) → Grows policy text.length registry grown →
      grown.Resolves shape found →
      Built policy registry name text (grown.define name (.composite found)).1
        (grown.define name (.composite found)).2

theorem Registry.find?_define (registry : Registry α) (name : String) (node : Node α)
    (other : String) :
    (registry.define name node).2.find? other =
      if other = name then some registry.graph.nodes.size else registry.find? other :=
  Registry.find?_install _ name _ other

theorem Registry.node?_define_of_none {registry : Registry α} {name : String}
    (h : registry.find? name = none) (node : Node α) (id : NodeId) :
    (registry.define name node).2.graph.node? id =
      if id = registry.graph.nodes.size then some node else registry.graph.node? id := by
  have hadded : (registry.add node).2.find? name = none := h
  change ((registry.add node).2.install name _).graph.node? id = _
  rw [graph_install_of_none _ hadded]
  exact Graph.node?_add registry.graph node id

namespace Registers

variable {policy : LiteralPolicy α} {bound : Nat} {registry grown : Registry α}

theorem exists_define (h : Registers policy bound registry grown) :
    ∃ name node, registry.find? name = none ∧ name.length < bound ∧
      grown = (registry.define name node).2 := by
  cases h with
  | literal hnew hlength _ _ => exact ⟨_, _, hnew, hlength, rfl⟩
  | composite hnew hlength _ _ => exact ⟨_, _, hnew, hlength, rfl⟩

theorem mono {wider : Nat} (hle : bound ≤ wider) (h : Registers policy bound registry grown) :
    Registers policy wider registry grown := by
  cases h with
  | literal hnew hlength hread hanswer => exact .literal hnew (by omega) hread hanswer
  | composite hnew hlength hread hfound => exact .composite hnew (by omega) hread hfound

end Registers

namespace Grows

variable {policy : LiteralPolicy α} {bound : Nat} {registry grown : Registry α}

theorem mono {wider : Nat} (hle : bound ≤ wider) (h : Grows policy bound registry grown) :
    Grows policy wider registry grown :=
  Relation.ReflTransGen.mono (fun _ _ hstep => Registers.mono hle hstep) _ _ h

theorem find?_eq_some (h : Grows policy bound registry grown) {name : String} {id : NodeId}
    (hname : registry.find? name = some id) : grown.find? name = some id := by
  induction h with
  | refl => exact hname
  | tail _ hstep ih =>
    obtain ⟨new, node, hnew, _, rfl⟩ := hstep.exists_define
    rw [Registry.find?_define, if_neg, ih]
    rintro rfl
    simp [ih] at hnew

theorem find?_eq_none (h : Grows policy bound registry grown) {name : String}
    (hlength : bound ≤ name.length) (hname : registry.find? name = none) :
    grown.find? name = none := by
  induction h with
  | refl => exact hname
  | tail _ hstep ih =>
    obtain ⟨new, node, _, hshort, rfl⟩ := hstep.exists_define
    rw [Registry.find?_define, if_neg, ih]
    rintro rfl
    omega

theorem entries_prefix (h : Grows policy bound registry grown) :
    registry.entries <+: grown.entries := by
  induction h with
  | refl => exact List.prefix_rfl
  | @tail between last _ hstep ih =>
    obtain ⟨new, node, hnew, _, rfl⟩ := hstep.exists_define
    have hadded : (between.add node).2.find? new = none := hnew
    have hentries := Registry.entries_install_of_none (between.add node).1 hadded
    exact ih.trans ⟨[(new, (between.add node).1)], hentries.symm⟩

theorem node?_eq_some (h : Grows policy bound registry grown) {id : NodeId} {node : Node α}
    (hnode : registry.graph.node? id = some node) : grown.graph.node? id = some node := by
  induction h with
  | refl => exact hnode
  | tail _ hstep ih =>
    obtain ⟨new, added, hnew, _, rfl⟩ := hstep.exists_define
    rw [Registry.node?_define_of_none hnew, if_neg, ih]
    exact Nat.ne_of_lt (Graph.lt_size_of_node? ih)

end Grows

namespace Built

variable {policy : LiteralPolicy α} {registry after : Registry α} {name : String} {id : NodeId}

/-- A name that is built from its own text because it is not registered only adds registrations. -/
theorem grows (h : Built policy registry name name id after) (hname : registry.find? name = none) :
    Grows policy (name.length + 1) registry after ∧ after.find? name = some id := by
  cases h with
  | bare _ hgrows hfound =>
    rw [Registry.graph_install_of_eq hfound]
    exact ⟨hgrows, hfound⟩
  | composite hread hgrows hfound =>
    have hfree := hgrows.find?_eq_none (Nat.le_refl _) hname
    have hlast : Registers policy (name.length + 1) _ _ :=
      .composite hfree (Nat.lt_succ_self name.length) hread hfound
    refine ⟨.tail (hgrows.mono (Nat.le_succ _)) hlast, ?_⟩
    rw [Registry.find?_define, if_pos rfl]
    rfl

end Built

end StochasticGrammar
