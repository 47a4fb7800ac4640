import StochasticGrammar.Proofs.ReferenceWiring

namespace StochasticGrammar

variable {α : Type}

namespace Session

/-- The names that lead the references of every rule after one more step. A name that the step
defines starts again with its references. -/
def leaderAfter (session : Session α) (step : Step α) (leader : String → String → String)
    (name reference : String) : String :=
  session.registry.handOver (session.perform step).registry step.name
    (if session.Redefines step name then reference
      else session.registry.renew leader name reference)

/-- The names that lead the references of every rule, for the latest step first. -/
def leaderOf (policy : LiteralPolicy α) (settings : Settings) (entropy : Twister) :
    List (Step α) → String → String → String
  | [] => fun _ reference => reference
  | step :: earlier =>
    (after policy settings entropy earlier.reverse).leaderAfter step
      (leaderOf policy settings entropy earlier)

/-- The name whose node the rule of a name has for a reference. It is the reference itself until
another name leaves the node of the leader; that name is the next leader. -/
def leader (policy : LiteralPolicy α) (settings : Settings) (entropy : Twister)
    (steps : List (Step α)) (name reference : String) : String :=
  leaderOf policy settings entropy steps.reverse name reference

theorem leader_concat (policy : LiteralPolicy α) (settings : Settings) (entropy : Twister)
    (earlier : List (Step α))
    (step : Step α) :
    leader policy settings entropy (earlier ++ [step]) =
      (after policy settings entropy earlier).leaderAfter step
        (leader policy settings entropy earlier) := by
  funext name reference
  unfold leader
  rw [List.reverse_concat, leaderOf, List.reverse_reverse]

theorem leaderAfter_of_redefines {session : Session α} {step : Step α} {name : String}
    (h : session.Redefines step name) (leader : String → String → String) (reference : String) :
    session.leaderAfter step leader name reference =
      session.registry.handOver (session.perform step).registry name reference := by
  unfold leaderAfter
  rw [if_pos h, h.2.1]

end Session

namespace Wired

variable {leader : String → String → String} {table : Table α} {registry grown later : Registry α}
  {policy : LiteralPolicy α}

/-- The end of a build hands over what the build as a whole does. -/
theorem handOver_of_grows {bound : Nat} (h : Wired leader table registry)
    (hgrows : Grows policy bound registry grown) (name other : String) :
    grown.handOver later name other = registry.handOver later name other := by
  have hparts : grown.Parts later name other ↔ registry.Parts later name other := by
    constructor
    · rintro ⟨hne, id, hname, hother, hafter⟩
      obtain ⟨hother', hname'⟩ := h.find?_eq_some_of_shared hgrows hne hother hname
      exact ⟨hne, id, hname', hother', hafter⟩
    · rintro ⟨hne, id, hname, hother, hafter⟩
      exact ⟨hne, id, hgrows.find?_eq_some hname, hgrows.find?_eq_some hother, hafter⟩
  unfold Registry.handOver
  simp only [hparts]

/-- A definition gives its name the links of its references and hands all links over. -/
theorem defines {step : Step α} (h : Wired leader table registry)
    (hstep : Defines policy registry step later) :
    Wired (fun name reference => registry.handOver later step.name
        (if name = step.name then reference else registry.renew leader name reference))
      ((step.name, step.source) :: table) later := by
  have htable : ∀ other, other ≠ step.name →
      List.lookup other ((step.name, step.source) :: table) = table.lookup other :=
    fun other hne => lookup_cons_of_ne hne _ table
  have hlatest : Table.latest ((step.name, step.source) :: table) step.name = step.source := by
    rw [Table.latest_cons, if_pos rfl]
  cases hstep with
  | @terminal name value =>
    have hsize := Graph.lt_size_of_node? (registry.node?_add_size (.leaf value))
    refine (h.renew.add (.leaf value)).install htable hsize fun text shape hsource => ?_
    rw [hlatest] at hsource
    cases hsource
  | @compile name text id _ hbuilt =>
    cases hbuilt with
    | bare hread hgrows hfound =>
      have hgrown := h.grows hgrows
      refine (hgrown.install htable (hgrown.bounded _ _ hfound) ?_).congr ?_
      · intro other shape hsource hshape
        rw [hlatest] at hsource
        cases hsource
        rw [hread] at hshape
        cases hshape
      · intro other place reference _
        exact h.handOver_of_grows hgrows _ _
    | @composite shape found grown hread hgrows hfound =>
      have hsize := Graph.lt_size_of_node? (grown.node?_add_size (.composite found))
      refine (((h.grows hgrows).add (.composite found)).install htable hsize ?_).congr ?_
      · intro other reading hsource hreading
        rw [hlatest] at hsource
        cases hsource
        rw [hread] at hreading
        cases hreading
        exact hfound.follows_add
      · intro other place reference _
        exact h.handOver_of_grows hgrows _ _

end Wired

/-- In every state of a session the links are those of the names that lead. -/
theorem wired_after (policy : LiteralPolicy α) (settings : Settings) (entropy : Twister)
    (steps : List (Step α)) :
    Wired (Session.leader policy settings entropy steps)
      (Session.after policy settings entropy steps).table
      (Session.after policy settings entropy steps).registry := by
  induction steps using List.reverseRecOn with
  | nil => exact ⟨by rintro _ _ ⟨⟩, fun _ _ => rfl, by rintro _ _ _ _ ⟨⟩⟩
  | append_singleton earlier step ih =>
    rw [Session.leader_concat, Session.after_concat]
    rcases (Session.after policy settings entropy earlier).perform_cases step with
      ⟨hredefines, htable, hdefines⟩ | ⟨hkept, htable, bound, hgrows⟩
    · rw [htable]
      refine (ih.defines hdefines).congr fun name id reference _ => ?_
      have hiff : (Session.after policy settings entropy earlier).Redefines step name ↔
          name = step.name := by
        constructor
        · intro h
          exact h.2.1.symm
        · rintro rfl
          exact hredefines
      unfold Session.leaderAfter
      simp only [hiff]
    · rw [htable]
      refine (ih.grows hgrows).congr fun name id reference _ => ?_
      have hkeeps := Registry.not_parts_of_keeps fun _ _ hname => hgrows.find?_eq_some hname
      unfold Session.leaderAfter
      rw [if_neg (hkept name), Registry.handOver_of_not_parts (hkeeps _ _)]

namespace Session

/-- The children of a name that was last defined by a composite text are in order the nodes of the
names that lead its references. Right after the definition itself these are the references, and the
name where it has just left the node that it shared with one of them. -/
theorem children_follow_leaders {policy : LiteralPolicy α} {settings : Settings} {entropy : Twister}
    {steps : List (Step α)} {name text : String} {shape : Composite String} {id : NodeId}
    (hname : (after policy settings entropy steps).registry.find? name = some id)
    (hlatest : (after policy settings entropy steps).table.latest name = .text text)
    (hread : Rule.read text = .ok (.composite shape)) :
    let reached := after policy settings entropy steps
    (reached.registry.graph.children id).map some =
        shape.operands.map (fun reference =>
          reached.registry.find? (leader policy settings entropy steps name reference)) ∧
      ∀ earlier, steps = earlier ++ [.compile name text] →
        (after policy settings entropy earlier).accepts (.compile name text) = true →
        (reached.registry.graph.children id).map some =
          shape.operands.map (fun reference => reached.registry.find?
            ((after policy settings entropy earlier).registry.handOver reached.registry name
              reference)) := by
  intro reached
  obtain ⟨found, hnode, _, hlinks⟩ :=
    (wired_after policy settings entropy steps).follows name id text shape hname hlatest hread
  have hchildren : (reached.registry.graph.children id).map some = shape.operands.map
      (fun reference =>
        reached.registry.find? (leader policy settings entropy steps name reference)) := by
    unfold Graph.children
    rw [hnode]
    refine hlinks.trans ?_
    rw [Composite.operands_map, List.map_map]
    rfl
  refine ⟨hchildren, ?_⟩
  rintro earlier rfl haccepts
  have hredefines :
      (after policy settings entropy earlier).Redefines (.compile name text) name := by
    refine ⟨haccepts, rfl, ?_⟩
    rintro ⟨_, hbare⟩
    rw [hread] at hbare
    cases hbare
  refine hchildren.trans (List.map_congr_left fun reference _ => ?_)
  rw [leader_concat, leaderAfter_of_redefines hredefines, ← after_concat]

/-- A rule goes along when one of its elements is redefined, and with the name that leaves a node
where an element shares it. -/
theorem children_follow_leaders_after_redefinition :
    let steps : List (Step String) :=
      [.compile "a" "x", .compile "s" "a & b", .compile "x" "y", .compile "b" "c & a"]
    let reached := after (.every id) {} (.ofSeed 0) steps
    reached.registry.find? "s" = some 2 ∧ reached.table.latest "s" = .text "a & b" ∧
      Rule.read "a & b" = .ok (.composite (.sequence ["a", "b"])) ∧
      leader (.every id) {} (.ofSeed 0) steps "s" "a" = "x" ∧
      leader (.every id) {} (.ofSeed 0) steps "s" "b" = "b" ∧
      (reached.registry.graph.children 2).map some =
        ["a", "b"].map fun reference =>
          reached.registry.find? (leader (.every id) {} (.ofSeed 0) steps "s" reference) := by
  intro steps reached
  have hname : reached.registry.find? "s" = some 2 := by decide +kernel
  have hlatest : reached.table.latest "s" = .text "a & b" := by decide +kernel
  have hread : Rule.read "a & b" = .ok (.composite (.sequence ["a", "b"])) := by decide +kernel
  exact ⟨hname, hlatest, hread, by decide +kernel, by decide +kernel,
    (children_follow_leaders hname hlatest hread).1⟩

/-- The first element of a sequence is written as another name of a rule, and goes with that rule
when it is redefined. -/
theorem not_children_eq_references :
    ¬∀ (policy : LiteralPolicy String) (settings : Settings) (entropy : Twister)
      (steps : List (Step String))
      (name text : String) (shape : Composite String) (id : NodeId),
      (after policy settings entropy steps).registry.find? name = some id →
      (after policy settings entropy steps).table.latest name = .text text →
      Rule.read text = .ok (.composite shape) →
      ((after policy settings entropy steps).registry.graph.children id).map some =
        shape.operands.map (after policy settings entropy steps).registry.find? := by
  intro h
  have hchildren := h (.every id) {} (.ofSeed 0)
    [.compile "a" "x", .compile "s" "a & b", .compile "x" "y"] "s" "a & b"
    (.sequence ["a", "b"]) 2 (by decide +kernel) (by decide +kernel) (by decide +kernel)
  exact absurd hchildren (by decide +kernel)

end Session

end StochasticGrammar
