import StochasticGrammar.Graph.Traversal
import Mathlib.Data.Set.Card

namespace StochasticGrammar

variable {α : Type}

/-- A node that roots lead to along operands. -/
inductive Graph.Reaches (graph : Graph α) (roots : List NodeId) : NodeId → Prop
  | root {id : NodeId} : id ∈ roots → graph.Reaches roots id
  | child {parent id : NodeId} :
      graph.Reaches roots parent → id ∈ graph.children parent → graph.Reaches roots id

def Registry.Reaches (registry : Registry α) (id : NodeId) : Prop :=
  registry.graph.Reaches registry.targets id

/-- The number of distinct nodes that the registered nodes lead to. -/
noncomputable def Registry.reachableCount (registry : Registry α) : Nat :=
  Set.ncard {id | registry.Reaches id}

namespace Graph

variable {graph : Graph α}

theorem Reaches.mono {roots wider : List NodeId} (hroots : roots ⊆ wider) {id : NodeId}
    (h : graph.Reaches roots id) : graph.Reaches wider id := by
  induction h with
  | root hmem => exact .root (hroots hmem)
  | child _ hchild ih => exact .child ih hchild

theorem Reaches.trans {roots further : List NodeId}
    (hfurther : ∀ id ∈ further, graph.Reaches roots id) {id : NodeId}
    (h : graph.Reaches further id) : graph.Reaches roots id := by
  induction h with
  | root hmem => exact hfurther _ hmem
  | child _ hchild ih => exact .child ih hchild

/-- A list that has the roots and, with every node, its operands, has every node that is reached. -/
theorem Reaches.mem_of_closed {roots nodes : List NodeId} (hroots : roots ⊆ nodes)
    (hclosed : ∀ id ∈ nodes, graph.children id ⊆ nodes) {id : NodeId}
    (h : graph.Reaches roots id) : id ∈ nodes := by
  induction h with
  | root hmem => exact hroots hmem
  | child _ hchild ih => exact hclosed _ ih hchild

theorem not_mem_seen_of_mem_explore {pending seen : List NodeId} {id : NodeId}
    (h : id ∈ graph.explore pending seen) : id ∉ seen := by
  fun_induction explore graph pending seen with
  | case1 => simp at h
  | case2 seen first rest hseen ih => exact ih h
  | case3 seen first rest hseen ih =>
    rcases List.mem_cons.mp h with rfl | hrest
    · exact hseen
    · exact fun hmem => ih hrest (List.mem_cons_of_mem first hmem)

theorem nodup_explore (graph : Graph α) (pending seen : List NodeId) :
    (graph.explore pending seen).Nodup := by
  fun_induction explore graph pending seen with
  | case1 => exact List.nodup_nil
  | case2 seen first rest hseen ih => exact ih
  | case3 seen first rest hseen ih =>
    exact List.nodup_cons.mpr ⟨fun hmem => not_mem_seen_of_mem_explore hmem List.mem_cons_self, ih⟩

theorem mem_explore_of_mem_pending {pending seen : List NodeId} {id : NodeId}
    (h : id ∈ pending) : id ∈ graph.explore pending seen ∨ id ∈ seen := by
  fun_induction explore graph pending seen with
  | case1 => simp at h
  | case2 seen first rest hseen ih =>
    rcases List.mem_cons.mp h with rfl | hrest
    · exact .inr hseen
    · exact ih hrest
  | case3 seen first rest hseen ih =>
    rcases List.mem_cons.mp h with rfl | hrest
    · exact .inl List.mem_cons_self
    · rcases ih (List.mem_append_right _ hrest) with hlater | hearlier
      · exact .inl (List.mem_cons_of_mem first hlater)
      · rcases List.mem_cons.mp hearlier with rfl | hbefore
        · exact .inl List.mem_cons_self
        · exact .inr hbefore

theorem children_mem_explore {pending seen : List NodeId} {id child : NodeId}
    (h : id ∈ graph.explore pending seen) (hchild : child ∈ graph.children id) :
    child ∈ graph.explore pending seen ∨ child ∈ seen := by
  fun_induction explore graph pending seen with
  | case1 => simp at h
  | case2 seen first rest hseen ih => exact ih h
  | case3 seen first rest hseen ih =>
    have hfound : child ∈ graph.explore ((graph.children first).reverse ++ rest) (first :: seen) ∨
        child ∈ first :: seen := by
      rcases List.mem_cons.mp h with rfl | hrest
      · have hpushed := List.mem_append_left rest (List.mem_reverse.mpr hchild)
        exact mem_explore_of_mem_pending hpushed
      · exact ih hrest
    rcases hfound with hlater | hearlier
    · exact .inl (List.mem_cons_of_mem first hlater)
    · rcases List.mem_cons.mp hearlier with rfl | hbefore
      · exact .inl List.mem_cons_self
      · exact .inr hbefore

theorem reaches_of_mem_explore {pending seen : List NodeId} {id : NodeId}
    (h : id ∈ graph.explore pending seen) : graph.Reaches pending id := by
  fun_induction explore graph pending seen with
  | case1 => simp at h
  | case2 seen first rest hseen ih => exact (ih h).mono (List.subset_cons_self first rest)
  | case3 seen first rest hseen ih =>
    rcases List.mem_cons.mp h with rfl | hrest
    · exact .root List.mem_cons_self
    · refine (ih hrest).trans fun other hother => ?_
      rcases List.mem_append.mp hother with hoperand | hpending
      · exact .child (.root List.mem_cons_self) (List.mem_reverse.mp hoperand)
      · exact .root (List.mem_cons_of_mem first hpending)

/-- A traversal lists exactly the nodes that are reached. -/
theorem mem_explore_iff {pending : List NodeId} {id : NodeId} :
    id ∈ graph.explore pending [] ↔ graph.Reaches pending id := by
  constructor
  · exact reaches_of_mem_explore
  · refine Reaches.mem_of_closed ?_ ?_
    · intro other hother
      exact (mem_explore_of_mem_pending hother).resolve_right List.not_mem_nil
    · intro parent hparent child hchild
      exact (children_mem_explore hparent hchild).resolve_right List.not_mem_nil

end Graph

namespace Registry

theorem mem_reachable_iff {registry : Registry α} {id : NodeId} :
    id ∈ registry.reachable ↔ registry.Reaches id := by
  unfold reachable
  rw [Graph.mem_explore_iff]
  constructor
  · exact Graph.Reaches.mono fun _ hmem => List.mem_reverse.mp hmem
  · exact Graph.Reaches.mono fun _ hmem => List.mem_reverse.mpr hmem

theorem length_reachable (registry : Registry α) :
    registry.reachable.length = registry.reachableCount := by
  have hset : {id | registry.Reaches id} = (registry.reachable.toFinset : Set NodeId) := by
    ext id
    simp [mem_reachable_iff]
  have hnodup : registry.reachable.Nodup := Graph.nodup_explore _ _ _
  unfold reachableCount
  rw [hset, Set.ncard_coe_finset, List.toFinset_card_of_nodup hnodup]

end Registry

end StochasticGrammar
