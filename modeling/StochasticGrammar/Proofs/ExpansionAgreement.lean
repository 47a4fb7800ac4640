import StochasticGrammar.Proofs.ExpansionRefinement
import StochasticGrammar.Proofs.UnsharedNames
import Mathlib.Data.Finset.Lattice.Fold

namespace StochasticGrammar

variable {α : Type}

theorem Registry.Resolves.eq_map {registry : Registry α} {shape : Composite String}
    {found : Composite NodeId} (h : registry.Resolves shape found) :
    ∃ place? : String → NodeId, found = shape.map place? ∧
      ∀ reference ∈ shape.operands, registry.find? reference = some (place? reference) := by
  have hplace : ∀ reference ∈ shape.operands,
      registry.find? reference = some ((registry.find? reference).getD 0) := by
    intro reference hmem
    obtain ⟨id, hid⟩ := h.exists_find? hmem
    rw [hid]
    rfl
  refine ⟨fun reference => (registry.find? reference).getD 0, h.form.eq_map ?_, hplace⟩
  have himages : found.operands.map some =
      (shape.operands.map fun reference => (registry.find? reference).getD 0).map some := by
    rw [h.operands, List.map_map]
    exact List.map_congr_left hplace
  exact List.map_injective_iff.mpr (Option.some_injective NodeId) himages

section Simulation

variable {σ : Type} [RandomSource σ] {rank : String → Nat} {literal : String → Option α}
  {table : Table α} {registry : Registry α}

theorem exists_map_of_meaning? (hwired : Wired (fun _ reference => reference) table registry)
    {name : String} {id : NodeId}
    {shape : Composite String} (hname : registry.find? name = some id)
    (hmeaning : table.meaning? literal name = some (.composite shape)) :
    ∃ place? : String → NodeId,
      registry.graph.node? id = some (.composite (shape.map place?)) ∧
      ∀ reference ∈ shape.operands, registry.find? reference = some (place? reference) := by
  obtain ⟨text, hlatest, hread⟩ := Table.latest_of_meaning? hmeaning
  obtain ⟨found, hnode, hresolves⟩ := hwired.follows name id text shape hname hlatest hread
  rw [Composite.map_eq_self fun _ => rfl] at hresolves
  obtain ⟨place?, rfl, hplace⟩ := hresolves.eq_map
  exact ⟨place?, hnode, hplace⟩

/-- An expansion by the definitions that ends is an expansion of the node. -/
theorem expand_refines_emit (mode : ExpansionMode)
    (hwired : Wired (fun _ reference => reference) table registry) (hmeant : Meant rank literal table registry)
    {limit : Nat} {depth : Int} {name : String} {id : NodeId}
    (hname : registry.find? name = some id) :
    Refines (table.expand literal mode limit depth name : Sampling σ (List α))
      (registry.graph.emit mode limit depth id) := by
  induction limit generalizing depth name id with
  | zero => exact Refines.tooDeep _
  | succ limit ih =>
    obtain ⟨meaning, hmeaning, hstands⟩ := hmeant name id hname
    unfold Table.expand
    rw [hmeaning]
    cases meaning with
    | value value =>
      have hnode : registry.graph.node? id = some (.leaf value) := hstands
      unfold Graph.emit
      rw [hnode]
      exact Refines.refl _
    | same reference =>
      exact (ih hstands.1).trans (registry.graph.emit_mono mode (Nat.le_succ limit) depth id)
    | composite shape =>
      obtain ⟨place?, hnode, hplace⟩ := exists_map_of_meaning? hwired hname hmeaning
      unfold Graph.emit
      rw [hnode]
      simp only
      rw [Composite.expand_map]
      exact Composite.expand_refines mode
        (fun depth reference hmem => ih (hplace reference hmem)) depth

/-- An expansion of a node that ends is one by the definitions. Between two nodes at most as many
definitions are looked up as there are ranks. -/
theorem emit_refines_expand (mode : ExpansionMode)
    (hwired : Wired (fun _ reference => reference) table registry) (hmeant : Meant rank literal table registry)
    {bound : Nat} (hbound : ∀ name id, registry.find? name = some id → rank name ≤ bound)
    {nesting limit : Nat} {depth : Int} {name : String} {id : NodeId}
    (hname : registry.find? name = some id)
    (hlimit : nesting * (bound + 1) + rank name ≤ limit + bound) :
    Refines (registry.graph.emit mode nesting depth id : Sampling σ (List α))
      (table.expand literal mode limit depth name) := by
  induction limit generalizing nesting depth name id with
  | zero =>
    cases nesting with
    | zero => exact Refines.tooDeep _
    | succ nesting =>
      rw [Nat.succ_mul] at hlimit
      omega
  | succ limit ih =>
    cases nesting with
    | zero => exact Refines.tooDeep _
    | succ nesting =>
      obtain ⟨meaning, hmeaning, hstands⟩ := hmeant name id hname
      unfold Table.expand
      rw [hmeaning]
      cases meaning with
      | value value =>
        have hnode : registry.graph.node? id = some (.leaf value) := hstands
        unfold Graph.emit
        rw [hnode]
        exact Refines.refl _
      | same reference =>
        obtain ⟨hreference, hless⟩ := hstands
        exact ih hreference (by omega)
      | composite shape =>
        obtain ⟨place?, hnode, hplace⟩ := exists_map_of_meaning? hwired hname hmeaning
        unfold Graph.emit
        rw [hnode]
        simp only
        rw [Composite.expand_map]
        refine Composite.expand_refines mode (fun depth reference hmem => ?_) depth
        have hrank := hbound reference _ (hplace reference hmem)
        rw [Nat.succ_mul] at hlimit
        exact ih (hplace reference hmem) (by omega)

theorem exists_rank_le (rank : String → Nat) (registry : Registry α) :
    ∃ bound, ∀ name id, registry.find? name = some id → rank name ≤ bound := by
  refine ⟨registry.names.toFinset.sup rank, fun name id hname => ?_⟩
  have hmem : name ∈ registry.names :=
    List.mem_map.mpr ⟨_, Registry.find?_eq_some_iff_mem.mp hname, rfl⟩
  exact Finset.le_sup (List.mem_toFinset.mpr hmem)

end Simulation

namespace Session

end Session

end StochasticGrammar
