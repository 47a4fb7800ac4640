import StochasticGrammar.Rule.Basic

namespace StochasticGrammar

universe u

/-- A position in the table of nodes. -/
abbrev NodeId := Nat

/-- A leaf with a terminal value, or a composite of nodes. -/
inductive Node (α : Type u) where
  | leaf (value : α)
  | composite (shape : Composite NodeId)
deriving DecidableEq

inductive NodeKind where
  | leaf
  | sequence
  | select
  | repetition
  | fallback
deriving DecidableEq

namespace NodeKind

def name : NodeKind → String
  | leaf => "leaf"
  | sequence => "sequence"
  | select => "select"
  | repetition => "repetition"
  | fallback => "fallback"

end NodeKind

namespace Node

variable {α : Type u}

def kind : Node α → NodeKind
  | leaf _ => .leaf
  | composite (.sequence _) => .sequence
  | composite (.select _) => .select
  | composite (.repetition ..) => .repetition
  | composite (.fallback ..) => .fallback

def children : Node α → List NodeId
  | leaf _ => []
  | composite shape => shape.operands

def map (f : NodeId → NodeId) : Node α → Node α
  | leaf value => leaf value
  | composite shape => composite (shape.map f)

def substitute (old new : NodeId) : Node α → Node α :=
  map fun child => if child = old then new else child

/-- The operands that an expansion enters at the same depth: all, except the primary operand of a
fallback. -/
def depthPreserving : Node α → List NodeId
  | composite (.fallback _ alternate) => [alternate]
  | node => node.children

/-- What a node without a name is called. -/
def placeholder (node : Node α) : String := "<" ++ node.kind.name ++ ">"

end Node

/-- A table of nodes that refer to each other by position, so that a node can be shared by many
parents and can reach itself. -/
structure Graph (α : Type u) where
  nodes : Array (Node α)
deriving DecidableEq

namespace Graph

variable {α : Type u}

def empty : Graph α := ⟨#[]⟩

def node? (graph : Graph α) (id : NodeId) : Option (Node α) := graph.nodes[id]?

/-- The direct operands of the node at a position; a position outside the table has none. -/
def children (graph : Graph α) (id : NodeId) : List NodeId :=
  (graph.node? id).elim [] Node.children

def depthPreserving (graph : Graph α) (id : NodeId) : List NodeId :=
  (graph.node? id).elim [] Node.depthPreserving

def add (graph : Graph α) (node : Node α) : NodeId × Graph α :=
  (graph.nodes.size, ⟨graph.nodes.push node⟩)

def substituteAt (graph : Graph α) (old new id : NodeId) : Graph α :=
  ⟨graph.nodes.modify id (Node.substitute old new)⟩

/-- Exchanges a direct operand of a node wherever it stands, and counts how often it did. -/
def substituteChild (graph : Graph α) (old new id : NodeId) : Nat × Graph α :=
  ((graph.children id).count old, graph.substituteAt old new id)

end Graph

end StochasticGrammar
