import StochasticGrammar.Graph.Registry
import StochasticGrammar.Proofs.CompositeForm

namespace StochasticGrammar

variable {α : Type}

namespace Node

theorem substitute_substitute (old new : NodeId) (node : Node α) :
    (node.substitute old new).substitute old new = node.substitute old new := by
  cases node with
  | leaf value => rfl
  | composite shape =>
    have hagain : ∀ child : NodeId, (if (if child = old then new else child) = old then new
        else if child = old then new else child) = if child = old then new else child := by
      intro child
      by_cases hchild : child = old
      · simp [hchild]
      · simp [hchild]
    simp only [substitute, map, Composite.map_map, hagain]

end Node

namespace Graph

theorem lt_size_of_node? {graph : Graph α} {id : NodeId} {node : Node α}
    (h : graph.node? id = some node) : id < graph.nodes.size :=
  (Array.getElem?_eq_some_iff.mp h).1

theorem children_of_node? {graph : Graph α} {id : NodeId} {node : Node α}
    (h : graph.node? id = some node) : graph.children id = node.children := by
  unfold children
  rw [h]
  rfl

theorem node?_add (graph : Graph α) (node : Node α) (id : NodeId) :
    (graph.add node).2.node? id =
      if id = graph.nodes.size then some node else graph.node? id :=
  Array.getElem?_push

theorem node?_substituteAt (graph : Graph α) (old new place id : NodeId) :
    (graph.substituteAt old new place).node? id =
      if place = id then (graph.node? id).map (Node.substitute old new) else graph.node? id :=
  Array.getElem?_modify

/-- A node that is visited again has no operand left to exchange. -/
theorem node?_foldl_substituteAt (old new : NodeId) (entries : List (String × NodeId))
    (graph : Graph α) (id : NodeId) :
    (entries.foldl (fun graph entry => graph.substituteAt old new entry.2) graph).node? id =
      if id ∈ entries.map Prod.snd then (graph.node? id).map (Node.substitute old new)
      else graph.node? id := by
  induction entries generalizing graph with
  | nil => simp
  | cons entry rest ih =>
    rw [List.foldl_cons, ih, node?_substituteAt]
    by_cases hentry : entry.2 = id
    · by_cases hrest : id ∈ rest.map Prod.snd
      · have htwice : Node.substitute old new ∘ Node.substitute old new =
            (Node.substitute old new : Node α → Node α) :=
          funext (Node.substitute_substitute old new)
        simp only [hentry, hrest, List.map_cons, List.mem_cons, or_true, ↓reduceIte, Option.map_map,
          htwice]
      · simp [hentry, hrest]
    · have hid : id ≠ entry.2 := fun h => hentry h.symm
      simp only [hentry, hid, List.map_cons, List.mem_cons, false_or, ↓reduceIte]

end Graph

theorem lookup_cons_of_ne {β : Type} {name first : String} (h : name ≠ first) (value : β)
    (rest : List (String × β)) : ((first, value) :: rest).lookup name = rest.lookup name := by
  have hbeq : (name == first) = false := by simpa using h
  rw [List.lookup_cons, hbeq]

theorem lookup_retarget (name : String) (id : NodeId) (entries : List (String × NodeId))
    (other : String) :
    (retarget name id entries).lookup other =
      if other = name then (entries.lookup other).map fun _ => id else entries.lookup other := by
  induction entries with
  | nil => simp [retarget]
  | cons entry rest ih =>
    obtain ⟨first, node⟩ := entry
    have hcons : retarget name id ((first, node) :: rest) =
        (first, if first = name then id else node) :: retarget name id rest := by
      by_cases hfirst : first = name <;> simp [retarget, hfirst]
    rw [hcons]
    by_cases hother : other = first
    · subst hother
      by_cases hname : other = name <;> simp [hname]
    · rw [lookup_cons_of_ne hother, lookup_cons_of_ne hother, ih]

namespace Registry

theorem node?_add_size (registry : Registry α) (node : Node α) :
    (registry.add node).2.graph.node? registry.graph.nodes.size = some node :=
  (Graph.node?_add registry.graph node _).trans (if_pos rfl)

theorem node?_add_of_some {registry : Registry α} {id : NodeId} {old : Node α}
    (h : registry.graph.node? id = some old) (node : Node α) :
    (registry.add node).2.graph.node? id = some old := by
  have hne : id ≠ registry.graph.nodes.size := Nat.ne_of_lt (Graph.lt_size_of_node? h)
  exact (Graph.node?_add registry.graph node id).trans (by rw [if_neg hne, h])

theorem find?_eq_some_iff_mem {registry : Registry α} {name : String} {id : NodeId} :
    registry.find? name = some id ↔ (name, id) ∈ registry.entries := by
  have hnodup := registry.names_nodup
  unfold find?
  generalize registry.entries = entries at hnodup ⊢
  induction entries with
  | nil => simp
  | cons entry rest ih =>
    obtain ⟨first, node⟩ := entry
    obtain ⟨hfirst, hrest⟩ := List.nodup_cons.mp hnodup
    rw [List.mem_cons, Prod.mk.injEq]
    by_cases hname : name = first
    · subst hname
      have hnot : (name, id) ∉ rest := fun hmem => hfirst (List.mem_map.mpr ⟨_, hmem, rfl⟩)
      simp [hnot, eq_comm]
    · rw [lookup_cons_of_ne hname]
      exact (ih hrest).trans (by simp [hname])

theorem mem_targets_iff {registry : Registry α} {id : NodeId} :
    id ∈ registry.targets ↔ ∃ name, registry.find? name = some id := by
  unfold targets
  simp only [List.mem_map, find?_eq_some_iff_mem, Prod.exists, exists_eq_right]

theorem install_of_none {registry : Registry α} {name : String} (id : NodeId)
    (h : registry.find? name = none) : registry.install name id = registry.append name id h := by
  unfold install
  split
  next => rfl
  next old hold => simp [h] at hold

theorem install_of_some {registry : Registry α} {name : String} {old : NodeId} (id : NodeId)
    (h : registry.find? name = some old) :
    registry.install name id = if old = id then registry else registry.rebind name old id := by
  unfold install
  split
  next hnone => simp [h] at hnone
  next old' hold =>
    rw [h] at hold
    cases hold
    rfl

theorem find?_install (registry : Registry α) (name : String) (id : NodeId) (other : String) :
    (registry.install name id).find? other =
      if other = name then some id else registry.find? other := by
  cases h : registry.find? name with
  | none =>
    rw [install_of_none id h]
    unfold find? append
    rw [List.lookup_append]
    by_cases hother : other = name
    · subst hother
      have hnone : registry.entries.lookup other = none := h
      simp [hnone]
    · rw [lookup_cons_of_ne hother]
      simp [hother]
  | some old =>
    rw [install_of_some id h]
    by_cases hold : old = id
    · by_cases hother : other = name
      · simp [hold, hother, h]
      · simp [hold, hother]
    · have hlookup : registry.entries.lookup name = some old := h
      simp only [hold, ↓reduceIte]
      change (retarget name id registry.entries).lookup other = _
      rw [lookup_retarget]
      by_cases hother : other = name
      · simp [hother, hlookup]
      · simp only [hother, ↓reduceIte]
        rfl

/-- A registration adds its node, and takes the old node of the name away unless another name keeps
it. -/
theorem mem_targets_install_iff (registry : Registry α) (name : String) (id place : NodeId) :
    place ∈ (registry.install name id).targets ↔
      place = id ∨ ∃ other, other ≠ name ∧ registry.find? other = some place := by
  rw [mem_targets_iff]
  constructor
  · rintro ⟨other, hother⟩
    rw [find?_install] at hother
    split at hother
    next => exact .inl (Option.some.inj hother).symm
    next hdifferent => exact .inr ⟨other, hdifferent, hother⟩
  · rintro (rfl | ⟨other, hdifferent, hother⟩)
    · exact ⟨name, by rw [find?_install, if_pos rfl]⟩
    · exact ⟨other, by rw [find?_install, if_neg hdifferent, hother]⟩

theorem entries_install_of_none {registry : Registry α} {name : String} (id : NodeId)
    (h : registry.find? name = none) :
    (registry.install name id).entries = registry.entries ++ [(name, id)] := by
  rw [install_of_none id h]
  rfl

theorem graph_install_of_none {registry : Registry α} {name : String} (id : NodeId)
    (h : registry.find? name = none) : (registry.install name id).graph = registry.graph := by
  rw [install_of_none id h]
  rfl

theorem graph_install_of_eq {registry : Registry α} {name : String} {id : NodeId}
    (h : registry.find? name = some id) : registry.install name id = registry := by
  rw [install_of_some id h, if_pos rfl]

/-- A registration under another node exchanges the operands of the nodes registered after it. -/
theorem node?_install_of_ne {registry : Registry α} {name : String} {old id : NodeId}
    (h : registry.find? name = some old) (hne : old ≠ id) (place : NodeId) :
    (registry.install name id).graph.node? place =
      if place ∈ (registry.install name id).targets
      then (registry.graph.node? place).map (Node.substitute old id)
      else registry.graph.node? place := by
  rw [install_of_some id h, if_neg hne]
  exact Graph.node?_foldl_substituteAt old id _ registry.graph place

theorem size_foldl_substituteAt (old new : NodeId) (entries : List (String × NodeId))
    (graph : Graph α) :
    (entries.foldl (fun graph entry => graph.substituteAt old new entry.2) graph).nodes.size =
      graph.nodes.size := by
  induction entries generalizing graph with
  | nil => rfl
  | cons entry rest ih =>
    rw [List.foldl_cons, ih]
    exact Array.size_modify

theorem size_install (registry : Registry α) (name : String) (id : NodeId) :
    (registry.install name id).graph.nodes.size = registry.graph.nodes.size := by
  cases h : registry.find? name with
  | none => rw [graph_install_of_none id h]
  | some old =>
    rw [install_of_some id h]
    split
    next => rfl
    next => exact size_foldl_substituteAt old id _ registry.graph

end Registry

end StochasticGrammar
