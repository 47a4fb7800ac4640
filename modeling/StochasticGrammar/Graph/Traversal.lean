import StochasticGrammar.Graph.Registry

namespace StochasticGrammar

universe u

namespace Graph

variable {α : Type u}

def unseenAmong (graph : Graph α) (seen : List NodeId) : List NodeId → Nat
  | [] => 0
  | id :: rest =>
    (if id ∈ seen then 0 else (graph.children id).length) + graph.unseenAmong seen rest

/-- The number of operands of the nodes of the table that have not been seen. -/
def unseen (graph : Graph α) (seen : List NodeId) : Nat :=
  graph.unseenAmong seen (List.range graph.nodes.size)

theorem unseenAmong_cons_le (graph : Graph α) (id : NodeId) (seen ids : List NodeId) :
    graph.unseenAmong (id :: seen) ids ≤ graph.unseenAmong seen ids := by
  induction ids with
  | nil => exact Nat.le_refl _
  | cons first rest ih =>
    unfold unseenAmong
    by_cases hs : first ∈ seen
    · simpa [hs] using ih
    · simp only [hs, List.mem_cons, or_false, ↓reduceIte]
      split <;> omega

theorem unseenAmong_cons_add_le (graph : Graph α) {id : NodeId} {seen ids : List NodeId}
    (hid : id ∈ ids) (hseen : id ∉ seen) :
    graph.unseenAmong (id :: seen) ids + (graph.children id).length ≤
      graph.unseenAmong seen ids := by
  induction ids with
  | nil => simp at hid
  | cons first rest ih =>
    unfold unseenAmong
    have hrest := graph.unseenAmong_cons_le id seen rest
    by_cases hf : first = id
    · subst hf
      simp only [List.mem_cons, true_or, hseen, ↓reduceIte]
      omega
    · have hmem : id ∈ rest := by
        rcases List.mem_cons.mp hid with h | h
        · exact absurd h.symm hf
        · exact h
      have hless := ih hmem
      simp only [List.mem_cons, hf, false_or]
      omega

theorem children_eq_nil_of_size_le (graph : Graph α) {id : NodeId}
    (h : graph.nodes.size ≤ id) : graph.children id = [] := by
  simp [children, node?, Array.getElem?_eq_none h]

theorem unseen_cons_add_le (graph : Graph α) {id : NodeId} {seen : List NodeId}
    (hseen : id ∉ seen) :
    graph.unseen (id :: seen) + (graph.children id).length ≤ graph.unseen seen := by
  by_cases hid : id < graph.nodes.size
  · exact graph.unseenAmong_cons_add_le (List.mem_range.mpr hid) hseen
  · rw [graph.children_eq_nil_of_size_le (Nat.le_of_not_lt hid)]
    exact graph.unseenAmong_cons_le id seen _

/-- The nodes that pending nodes lead to and that have not been seen, in the order in which a stack
reaches them: a node that is reached for the first time puts its operands on it, the last on top. -/
def explore (graph : Graph α) (pending seen : List NodeId) : List NodeId :=
  match pending with
  | [] => []
  | id :: rest =>
    if _hseen : id ∈ seen then graph.explore rest seen
    else id :: graph.explore ((graph.children id).reverse ++ rest) (id :: seen)
termination_by pending.length + graph.unseen seen
decreasing_by
  · simp only [List.length_cons]; omega
  · have hless := graph.unseen_cons_add_le _hseen
    simp only [List.length_cons, List.length_append, List.length_reverse]
    omega

end Graph

namespace Registry

variable {α : Type u}

/-- The nodes that are reached from the registry, from its last entry on. -/
def reachable (registry : Registry α) : List NodeId :=
  registry.graph.explore registry.targets.reverse []

end Registry

/-- A node on the path of the search, with the operands that are still to be followed. -/
structure Frame where
  node : NodeId
  remaining : List NodeId
deriving DecidableEq

/-- The path from a node of a search to the node whose operands are followed, closed by an edge
back to its first node. The newest frame comes first. -/
def closedPath (child : NodeId) (frames : List Frame) : List NodeId :=
  child :: ((frames.map Frame.node).takeWhile (· ≠ child)).reverse ++ [child]

/-- The edges that frames are still to follow, counted twice, and the frames. -/
def remainingSteps : List Frame → Nat
  | [] => 0
  | frame :: below => 2 * frame.remaining.length + 1 + remainingSteps below

namespace Graph

variable {α : Type u}

theorem depthPreserving_length_le (graph : Graph α) (id : NodeId) :
    (graph.depthPreserving id).length ≤ (graph.children id).length := by
  unfold depthPreserving children
  cases graph.node? id with
  | none => exact Nat.le_refl _
  | some node =>
    cases node with
    | leaf value => exact Nat.le_refl _
    | composite shape =>
      cases shape with
      | fallback primary alternate => exact Nat.le_succ 1
      | sequence _ => exact Nat.le_refl _
      | select _ => exact Nat.le_refl _
      | repetition _ _ => exact Nat.le_refl _

/-- The cycles that a search finds from its path, and then from the roots that it has not visited
by then. -/
def cyclesFrom (graph : Graph α) (frames : List Frame) (roots visited : List NodeId) :
    List (List NodeId) :=
  match frames with
  | [] =>
    match roots with
    | [] => []
    | root :: later =>
      if _hvisited : root ∈ visited then graph.cyclesFrom [] later visited
      else graph.cyclesFrom [⟨root, graph.depthPreserving root⟩] later (root :: visited)
  | ⟨_, []⟩ :: below => graph.cyclesFrom below roots visited
  | ⟨node, child :: remaining⟩ :: below =>
    let frames := ⟨node, remaining⟩ :: below
    if child ∈ frames.map Frame.node then
      closedPath child frames :: graph.cyclesFrom frames roots visited
    else if _hvisited : child ∈ visited then graph.cyclesFrom frames roots visited
    else graph.cyclesFrom (⟨child, graph.depthPreserving child⟩ :: frames) roots (child :: visited)
termination_by remainingSteps frames + 2 * roots.length + 2 * graph.unseen visited
decreasing_by
  all_goals simp only [remainingSteps, List.length_cons, List.length_nil]
  · omega
  · have hless := graph.unseen_cons_add_le _hvisited
    have hdegree := graph.depthPreserving_length_le root
    omega
  · omega
  · omega
  · omega
  · have hless := graph.unseen_cons_add_le _hvisited
    have hdegree := graph.depthPreserving_length_le child
    omega

end Graph

namespace Registry

variable {α : Type u}

/-- The cycles among reachable nodes that no fallback bounds, each with its first node repeated at
the end. -/
def unboundedCycles (registry : Registry α) : List (List NodeId) :=
  registry.graph.cyclesFrom [] registry.reachable []

end Registry

end StochasticGrammar
