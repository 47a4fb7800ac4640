import StochasticGrammar.Graph.Basic

namespace StochasticGrammar

universe u

/-- Named nodes over a table of nodes, in the order in which the names were first installed; no name
stands for two nodes. -/
structure Registry (α : Type u) where
  graph : Graph α
  entries : List (String × NodeId)
  names_nodup : (entries.map Prod.fst).Nodup

def retarget (name : String) (id : NodeId) (entries : List (String × NodeId)) :
    List (String × NodeId) :=
  entries.map fun entry => if entry.1 = name then (entry.1, id) else entry

theorem map_fst_retarget (name : String) (id : NodeId) (entries : List (String × NodeId)) :
    (retarget name id entries).map Prod.fst = entries.map Prod.fst := by
  unfold retarget
  rw [List.map_map]
  refine List.map_congr_left fun entry _ => ?_
  by_cases h : entry.1 = name <;> simp [h]

namespace Registry

variable {α : Type u}

def empty : Registry α := ⟨.empty, [], List.nodup_nil⟩

def find? (registry : Registry α) (name : String) : Option NodeId := registry.entries.lookup name

def contains (registry : Registry α) (name : String) : Bool := (registry.find? name).isSome

def names (registry : Registry α) : List String := registry.entries.map Prod.fst

/-- The registered nodes in the order of their names. -/
def targets (registry : Registry α) : List NodeId := registry.entries.map Prod.snd

def nameOf? (registry : Registry α) (id : NodeId) : Option String :=
  (registry.entries.find? (·.2 = id)).map Prod.fst

/-- What a node is called in reports: its first name, or else its kind. -/
def label (registry : Registry α) (id : NodeId) : String :=
  (registry.nameOf? id).getD ((registry.graph.node? id).elim "" Node.placeholder)

theorem find?_eq_none {registry : Registry α} {name : String} (h : registry.find? name = none) :
    name ∉ registry.names := by
  intro hmem
  obtain ⟨entry, he, rfl⟩ := List.mem_map.mp hmem
  have hne := List.lookup_eq_none_iff.mp h entry he
  simp at hne

def add (registry : Registry α) (node : Node α) : NodeId × Registry α :=
  ((registry.graph.add node).1, { registry with graph := (registry.graph.add node).2 })

/-- Points a registered name at another node, and then exchanges the old node for the new one among
the direct operands of every entry. Other names of the old node keep it. -/
def rebind (registry : Registry α) (name : String) (old new : NodeId) : Registry α :=
  let entries := retarget name new registry.entries
  { graph := entries.foldl (fun graph entry => graph.substituteAt old new entry.2) registry.graph
    entries := entries
    names_nodup := by rw [map_fst_retarget]; exact registry.names_nodup }

/-- Points a registered name at a node; a name that is not registered has none to replace. -/
def replace? (registry : Registry α) (name : String) (id : NodeId) : Option (Registry α) :=
  (registry.find? name).map fun old =>
    if old = id then registry else registry.rebind name old id

def append (registry : Registry α) (name : String) (id : NodeId)
    (h : registry.find? name = none) : Registry α :=
  { registry with
    entries := registry.entries ++ [(name, id)]
    names_nodup := by
      rw [List.map_append, List.nodup_append]
      refine ⟨registry.names_nodup, by simp, ?_⟩
      intro first hfirst second hsecond heq
      obtain rfl : second = name := by simpa using hsecond
      exact find?_eq_none h (heq ▸ hfirst) }

/-- Registers a node under a name: in place of the node that the name had, or at the end. -/
def install (registry : Registry α) (name : String) (id : NodeId) : Registry α :=
  match h : registry.find? name with
  | none => registry.append name id h
  | some old => if old = id then registry else registry.rebind name old id

def define (registry : Registry α) (name : String) (node : Node α) : NodeId × Registry α :=
  let added := registry.add node
  (added.1, added.2.install name added.1)

end Registry

end StochasticGrammar
