import StochasticGrammar.Proofs.BuildGrowth

namespace StochasticGrammar

variable {α : Type}

namespace Registry

/-- The node at a place is the composite of the nodes that are registered under the names. -/
def Follows (registry : Registry α) (shape : Composite String) (place : NodeId) : Prop :=
  ∃ found, registry.graph.node? place = some (.composite found) ∧ registry.Resolves shape found

/-- A name leaves the node that it shares with another name. -/
def Parts (before after : Registry α) (name other : String) : Prop :=
  other ≠ name ∧ ∃ id ∈ before.find? name, before.find? other = some id ∧
    after.find? name ≠ some id

instance (before after : Registry α) (name other : String) :
    Decidable (before.Parts after name other) :=
  inferInstanceAs (Decidable (other ≠ name ∧ ∃ id ∈ before.find? name, _))

/-- The name that a link to another name goes along with when a name gets a node. -/
def handOver (before after : Registry α) (name other : String) : String :=
  if before.Parts after name other then name else other

variable {registry later : Registry α} {shape : Composite String} {found : Composite NodeId}
  {place : NodeId}

theorem handOver_of_not_parts {before after : Registry α} {name other : String}
    (h : ¬before.Parts after name other) : before.handOver after name other = other :=
  if_neg h

theorem not_parts_of_keeps {before after : Registry α}
    (h : ∀ name id, before.find? name = some id → after.find? name = some id) (name other : String) :
    ¬before.Parts after name other := by
  rintro ⟨_, id, hname, _, hafter⟩
  exact hafter (h name id hname)

theorem Resolves.follows_add (h : registry.Resolves shape found) :
    (registry.add (.composite found)).2.Follows shape registry.graph.nodes.size :=
  ⟨found, registry.node?_add_size _, h.form, h.operands⟩

theorem Resolves.exists_find? (h : registry.Resolves shape found) {reference : String}
    (hmem : reference ∈ shape.operands) : ∃ id, registry.find? reference = some id := by
  have hsome : registry.find? reference ∈ found.operands.map some := by
    rw [h.operands]
    exact List.mem_map_of_mem hmem
  obtain ⟨id, _, hid⟩ := List.mem_map.mp hsome
  exact ⟨id, hid.symm⟩

theorem Resolves.mono (h : registry.Resolves shape found)
    (hfind : ∀ name id, registry.find? name = some id → later.find? name = some id) :
    later.Resolves shape found := by
  refine ⟨h.form, h.operands.trans (List.map_congr_left fun reference hmem => ?_)⟩
  obtain ⟨id, hid⟩ := h.exists_find? hmem
  rw [hid, hfind reference id hid]

theorem Follows.mono (h : registry.Follows shape place)
    (hnode : ∀ node, registry.graph.node? place = some node → later.graph.node? place = some node)
    (hfind : ∀ name id, registry.find? name = some id → later.find? name = some id) :
    later.Follows shape place := by
  obtain ⟨found, hfound, hresolves⟩ := h
  exact ⟨found, hnode _ hfound, hresolves.mono hfind⟩

/-- A link that is handed over leads to what the registration puts in the place of its node. -/
theorem find?_handOver {name : String} {old id : NodeId} (hname : registry.find? name = some old)
    (hne : old ≠ id) (reference : String) :
    (registry.install name id).find?
        (registry.handOver (registry.install name id) name reference) =
      (registry.find? reference).map fun child => if child = old then id else child := by
  have hafter : (registry.install name id).find? name = some id := by
    rw [find?_install, if_pos rfl]
  by_cases hreference : reference = name
  · subst hreference
    rw [handOver_of_not_parts fun h => h.1 rfl, hafter, hname]
    simp
  · by_cases hshared : registry.find? reference = some old
    · have hparts : registry.Parts (registry.install name id) name reference := by
        refine ⟨hreference, old, hname, hshared, ?_⟩
        rw [hafter]
        exact fun h => hne (Option.some.inj h).symm
      rw [handOver, if_pos hparts, hafter, hshared]
      simp
    · have hparts : ¬registry.Parts (registry.install name id) name reference := by
        rintro ⟨_, other, hother, hsame, _⟩
        cases hname.symm.trans hother
        exact hshared hsame
      rw [handOver_of_not_parts hparts, find?_install, if_neg hreference]
      cases hfind : registry.find? reference with
      | none => rfl
      | some child =>
        have hchild : child ≠ old := fun h => hshared (hfind.trans (congrArg some h))
        simp [hchild]

theorem Follows.handOver_of_keeps (h : registry.Follows shape place) (name : String)
    (hnode : ∀ node, registry.graph.node? place = some node → later.graph.node? place = some node)
    (hfind : ∀ other id, registry.find? other = some id → later.find? other = some id) :
    later.Follows (shape.map (registry.handOver later name)) place := by
  rw [Composite.map_eq_self fun reference =>
    handOver_of_not_parts (not_parts_of_keeps hfind name reference)]
  exact h.mono hnode hfind

/-- A registration hands over the links of every registered node. -/
theorem Follows.install (h : registry.Follows shape place) (name : String) (id : NodeId)
    {other : String} (hother : (registry.install name id).find? other = some place) :
    (registry.install name id).Follows
      (shape.map (registry.handOver (registry.install name id) name)) place := by
  cases hname : registry.find? name with
  | none =>
    refine h.handOver_of_keeps name ?_ fun reference child hchild => ?_
    · rw [graph_install_of_none id hname]
      exact fun _ h => h
    · rw [find?_install, if_neg, hchild]
      rintro rfl
      simp [hchild] at hname
  | some old =>
    by_cases hold : old = id
    · subst hold
      rw [graph_install_of_eq hname]
      exact h.handOver_of_keeps name (fun _ h => h) fun _ _ h => h
    · obtain ⟨found, hfound, hresolves⟩ := h
      have hplace : place ∈ (registry.install name id).targets := mem_targets_iff.mpr ⟨other, hother⟩
      refine ⟨found.map fun child => if child = old then id else child, ?_,
        ((shape.sameForm_map _).symm.trans hresolves.form).trans (found.sameForm_map _), ?_⟩
      · rw [node?_install_of_ne hname hold, if_pos hplace, hfound]
        rfl
      · have hlinks := congrArg
          (List.map (Option.map fun child => if child = old then id else child)) hresolves.operands
        rw [List.map_map, List.map_map] at hlinks
        rw [Composite.operands_map, Composite.operands_map, List.map_map, List.map_map]
        exact hlinks.trans (List.map_congr_left fun reference _ =>
          (find?_handOver hname hold reference).symm)

end Registry

end StochasticGrammar
