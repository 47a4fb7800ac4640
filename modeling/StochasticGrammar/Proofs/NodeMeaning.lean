import StochasticGrammar.Proofs.DirectExpansion
import StochasticGrammar.Proofs.ReferenceWiring

namespace StochasticGrammar

variable {α : Type}

/-- A node stands for a meaning that is not a composite: it is the leaf of the value, or the node of
the other name, whose rank is smaller. -/
def Registry.StandsFor (registry : Registry α) (rank : String → Nat) (name : String)
    (id : NodeId) : Meaning α → Prop
  | .value value => registry.graph.node? id = some (.leaf value)
  | .same reference => registry.find? reference = some id ∧ rank reference < rank name
  | .composite _ => True

/-- Every registered name has a meaning that its node stands for. The ranks show that no name is
the same as itself by way of others. -/
def Meant (rank : String → Nat) (literal : String → Option α) (table : Table α)
    (registry : Registry α) : Prop :=
  ∀ name id, registry.find? name = some id → ∃ meaning, table.meaning? literal name = some meaning ∧
    registry.StandsFor rank name id meaning

/-- Another entry has the node of a name. -/
def Registry.Shares (registry : Registry α) (name : String) : Prop :=
  ∃ entry ∈ registry.entries, entry.1 ≠ name ∧ registry.find? name = some entry.2

instance (registry : Registry α) (name : String) : Decidable (registry.Shares name) :=
  inferInstanceAs (Decidable (∃ entry ∈ registry.entries, _))

theorem Registry.shares_of_find?_eq {registry : Registry α} {name other : String} {id : NodeId}
    (hne : other ≠ name) (hname : registry.find? name = some id)
    (hother : registry.find? other = some id) : registry.Shares name :=
  ⟨(other, id), find?_eq_some_iff_mem.mp hother, hne, hname⟩

theorem Registry.find?_eq_of_shares {registry : Registry α} {name : String}
    (h : registry.Shares name) : ∃ other id, other ≠ name ∧ registry.find? name = some id ∧
      registry.find? other = some id := by
  obtain ⟨⟨other, id⟩, hentry, hne, hname⟩ := h
  exact ⟨other, id, hne, hname, find?_eq_some_iff_mem.mpr hentry⟩

namespace Registry.StandsFor

variable {registry later : Registry α} {rank : String → Nat} {name : String} {id : NodeId}
  {meaning : Meaning α}

theorem mono (h : registry.StandsFor rank name id meaning)
    (hnode : ∀ value, registry.graph.node? id = some (.leaf value) →
      later.graph.node? id = some (.leaf value))
    (hfind : ∀ other, registry.find? other = some id → later.find? other = some id) :
    later.StandsFor rank name id meaning := by
  cases meaning with
  | value value => exact hnode value h
  | same reference => exact ⟨hfind reference h.1, h.2⟩
  | composite shape => trivial

end Registry.StandsFor

theorem Registry.node?_install_of_leaf {registry : Registry α} {place : NodeId} {value : α}
    (h : registry.graph.node? place = some (.leaf value)) (name : String) (id : NodeId) :
    (registry.install name id).graph.node? place = some (.leaf value) := by
  cases hname : registry.find? name with
  | none => rw [graph_install_of_none id hname, h]
  | some old =>
    by_cases hold : old = id
    · subst hold
      rw [graph_install_of_eq hname, h]
    · rw [node?_install_of_ne hname hold, h]
      split <;> rfl

theorem Registry.not_shares_of_none {registry : Registry α} {name : String}
    (h : registry.find? name = none) : ¬registry.Shares name := by
  rintro ⟨entry, _, _, hname⟩
  rw [h] at hname
  cases hname

theorem Wired.shares_of_grows {policy : LiteralPolicy α} {bound : Nat}
    {leader : String → String → String} {table : Table α} {registry grown : Registry α}
    (h : Wired leader table registry) (hgrows : Grows policy bound registry grown) {name : String}
    (hshares : grown.Shares name) : registry.Shares name := by
  obtain ⟨other, id, hne, hname, hother⟩ := Registry.find?_eq_of_shares hshares
  obtain ⟨hname', hother'⟩ :=
    h.find?_eq_some_of_shared hgrows (fun heq => hne heq.symm) hname hother
  exact Registry.shares_of_find?_eq hne hname' hother'

namespace Meant

variable {rank : String → Nat} {literal : String → Option α} {policy : LiteralPolicy α}
  {leader : String → String → String} {table : Table α} {registry grown later : Registry α}

theorem add (h : Meant rank literal table registry) (node : Node α) :
    Meant rank literal table (registry.add node).2 := by
  intro name id hname
  obtain ⟨meaning, hmeaning, hstands⟩ := h name id hname
  exact ⟨meaning, hmeaning,
    hstands.mono (fun value hvalue => Registry.node?_add_of_some hvalue node) fun _ h => h⟩

/-- A name that shares its node with no other gets a node without touching what others mean. -/
theorem install {rank' : String → Nat} {later : Table α} {name : String} {id : NodeId}
    {meaning : Meaning α} (h : Meant rank literal table registry) (hshares : ¬registry.Shares name)
    (hrank : ∀ other, other ≠ name → rank' other = rank other)
    (htable : ∀ other, other ≠ name → later.meaning? literal other = table.meaning? literal other)
    (hmeaning : later.meaning? literal name = some meaning)
    (hstands : (registry.install name id).StandsFor rank' name id meaning) :
    Meant rank' literal later (registry.install name id) := by
  intro other place hother
  rw [Registry.find?_install] at hother
  by_cases hne : other = name
  · rw [if_pos hne] at hother
    subst hne
    cases hother
    exact ⟨meaning, hmeaning, hstands⟩
  · rw [if_neg hne] at hother
    obtain ⟨old, hold, hstands⟩ := h other place hother
    refine ⟨old, (htable other hne).trans hold, ?_⟩
    cases old with
    | value value => exact Registry.node?_install_of_leaf hstands name id
    | composite shape => trivial
    | same reference =>
      -- the reference shares the node of the other name, so it is not the name that gets one
      obtain ⟨hreference, hless⟩ := hstands
      have hfree : reference ≠ name := by
        rintro rfl
        exact hshares (Registry.shares_of_find?_eq hne hreference hother)
      refine ⟨?_, ?_⟩
      · rw [Registry.find?_install, if_neg hfree, hreference]
      · rw [hrank reference hfree, hrank other hne]
        exact hless

theorem define_leaf {later : Table α} {name : String} {value : α}
    (h : Meant rank literal table registry) (hshares : ¬registry.Shares name)
    (htable : ∀ other, other ≠ name → later.meaning? literal other = table.meaning? literal other)
    (hmeaning : later.meaning? literal name = some (.value value)) :
    Meant rank literal later (registry.define name (.leaf value)).2 := by
  have hadded : ¬(registry.add (.leaf value)).2.Shares name := hshares
  have hnode := Registry.node?_install_of_leaf (registry.node?_add_size (.leaf value)) name
    registry.graph.nodes.size
  exact (h.add (.leaf value)).install hadded (fun _ _ => rfl) htable hmeaning hnode

theorem define_composite {later : Table α} {name : String} {shape : Composite String}
    (h : Meant rank literal table registry) (hshares : ¬registry.Shares name)
    (htable : ∀ other, other ≠ name → later.meaning? literal other = table.meaning? literal other)
    (hmeaning : later.meaning? literal name = some (.composite shape)) (found : Composite NodeId) :
    Meant rank literal later (registry.define name (.composite found)).2 := by
  have hadded : ¬(registry.add (.composite found)).2.Shares name := hshares
  exact (h.add (.composite found)).install hadded (fun _ _ => rfl) htable hmeaning trivial

/-- A name that gets the node of another name ranks above it. -/
theorem install_same {later : Table α} {name reference : String} {id : NodeId}
    (h : Meant rank literal table registry) (hshares : ¬registry.Shares name)
    (hne : reference ≠ name) (hfound : registry.find? reference = some id)
    (htable : ∀ other, other ≠ name → later.meaning? literal other = table.meaning? literal other)
    (hmeaning : later.meaning? literal name = some (.same reference)) :
    ∃ rank', Meant rank' literal later (registry.install name id) := by
  have hfind : (registry.install name id).find? reference = some id := by
    rw [Registry.find?_install, if_neg hne, hfound]
  have hless : (if reference = name then rank reference + 1 else rank reference) <
      if name = name then rank reference + 1 else rank name := by
    rw [if_neg hne, if_pos rfl]
    exact Nat.lt_succ_self _
  exact ⟨fun other => if other = name then rank reference + 1 else rank other,
    h.install hshares (fun other hother => if_neg hother) htable hmeaning ⟨hfind, hless⟩⟩

theorem registers {bound : Nat} (h : Meant rank (policy.answer []) table registry)
    (hwired : Wired leader table registry) (htext : policy.DependsOnText)
    (hstep : Registers policy bound registry grown) :
    Meant rank (policy.answer []) table grown := by
  cases hstep with
  | @literal name asked value hnew _ hread hanswer =>
    have hlatest := Table.latest_of_lookup_eq_none (hwired.undefined name hnew)
    have hmeaning : table.meaning? (policy.answer []) name = some (.value value) := by
      unfold Table.meaning?
      rw [hlatest]
      simp only [hread, ↓reduceIte]
      rw [htext [] asked, hanswer]
      rfl
    exact h.define_leaf (Registry.not_shares_of_none hnew) (fun _ _ => rfl) hmeaning
  | @composite name shape found hnew _ hread _ =>
    have hlatest := Table.latest_of_lookup_eq_none (hwired.undefined name hnew)
    have hmeaning : table.meaning? (policy.answer []) name = some (.composite shape) :=
      Table.meaning?_of_composite hlatest hread
    exact h.define_composite (Registry.not_shares_of_none hnew) (fun _ _ => rfl) hmeaning found

theorem grows {bound : Nat} (h : Meant rank (policy.answer []) table registry)
    (hwired : Wired leader table registry) (htext : policy.DependsOnText)
    (hgrows : Grows policy bound registry grown) : Meant rank (policy.answer []) table grown := by
  induction hgrows with
  | refl => exact h
  | tail hprevious hstep ih => exact ih.registers (hwired.grows hprevious) htext hstep

/-- A definition keeps the meanings of names that do not share the node of its name. -/
theorem defines {step : Step α} (h : Meant rank (policy.answer []) table registry)
    (hwired : Wired leader table registry) (htext : policy.DependsOnText)
    (hstep : Defines policy registry step later) (hnew : ¬step.KeepsMeaning)
    (hshares : ¬registry.Shares step.name) :
    ∃ rank', Meant rank' (policy.answer []) ((step.name, step.source) :: table) later := by
  have htable : ∀ other, other ≠ step.name →
      Table.meaning? ((step.name, step.source) :: table) (policy.answer []) other =
        table.meaning? (policy.answer []) other :=
    fun other hne => Table.meaning?_cons_of_ne step.source hne
  have hlatest : Table.latest ((step.name, step.source) :: table) step.name = step.source := by
    rw [Table.latest_cons, if_pos rfl]
  cases hstep with
  | @terminal name value =>
    have hmeaning : Table.meaning? ((name, .value value) :: table) (policy.answer []) name =
        some (.value value) := by
      unfold Table.meaning?
      rw [Table.latest_cons, if_pos rfl]
    exact ⟨rank, h.define_leaf hshares htable hmeaning⟩
  | @compile name text id _ hbuilt =>
    cases hbuilt with
    | @bare grown id hread hgrows hfound =>
      have hne : text ≠ name := by
        rintro rfl
        exact hnew ⟨rfl, hread⟩
      have hmeaning : Table.meaning? ((name, .text text) :: table) (policy.answer []) name =
          some (.same text) := by
        unfold Table.meaning?
        rw [Table.latest_cons, if_pos rfl]
        simp only [hread, if_neg hne]
      have hgrown : ¬grown.Shares name :=
        fun hshared => hshares (hwired.shares_of_grows hgrows hshared)
      exact (h.grows hwired htext hgrows).install_same hgrown hne hfound htable hmeaning
    | @composite shape found grown hread hgrows _ =>
      have hgrown : ¬grown.Shares name :=
        fun hshared => hshares (hwired.shares_of_grows hgrows hshared)
      have hmeaning : Table.meaning? ((name, .text text) :: table) (policy.answer []) name =
          some (.composite shape) := Table.meaning?_of_composite hlatest hread
      exact ⟨rank, (h.grows hwired htext hgrows).define_composite hgrown htable hmeaning found⟩

end Meant

end StochasticGrammar
