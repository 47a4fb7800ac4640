import StochasticGrammar.Proofs.OperandExchange
import StochasticGrammar.Proofs.ResolvableReferences

namespace StochasticGrammar

variable {α : Type}

/-- The operands of all nodes are nodes of the table. -/
def Graph.IsGrounded (graph : Graph α) : Prop :=
  ∀ id, ∀ child ∈ graph.children id, child < graph.nodes.size

/-- Of names that are known and new ones, the filter that passes over the known ones leaves the new
ones. -/
theorem filter_append_of_nodup {known new : List String} (h : (known ++ new).Nodup)
    (name : String) :
    (known ++ new).filter (fun other => !known.contains other && other != name) =
      new.filter (· != name) := by
  have hknown : known.filter (fun other => !known.contains other && other != name) = [] := by
    refine List.filter_eq_nil_iff.mpr fun other hother => ?_
    rw [List.contains_iff_mem.mpr hother]
    simp
  rw [List.filter_append, hknown, List.nil_append]
  refine List.filter_congr fun other hother => ?_
  have hunknown : known.contains other = false := by
    refine Bool.eq_false_iff.mpr fun hmem => ?_
    exact (List.nodup_append.mp h).2.2 other (List.contains_iff_mem.mp hmem) other hother rfl
  rw [hunknown]
  rfl

namespace Registry

theorem contains_iff_mem_names {registry : Registry α} {name : String} :
    registry.contains name = true ↔ name ∈ registry.names := by
  unfold contains names
  rw [Option.isSome_iff_exists]
  simp only [find?_eq_some_iff_mem, List.mem_map, Prod.exists, exists_and_right, exists_eq_right]

theorem size_define (registry : Registry α) (name : String) (node : Node α) :
    (registry.define name node).2.graph.nodes.size = registry.graph.nodes.size + 1 :=
  (size_install _ name _).trans (Array.size_push _)

theorem mem_children_install {registry : Registry α} {name : String} {id place child : NodeId}
    (h : child ∈ (registry.install name id).graph.children place) :
    child ∈ registry.graph.children place ∨ child = id := by
  cases hname : registry.find? name with
  | none =>
    rw [graph_install_of_none id hname] at h
    exact .inl h
  | some old =>
    by_cases hold : old = id
    · rw [graph_install_of_eq (hold ▸ hname)] at h
      exact .inl h
    · by_cases hplace : place ∈ (registry.install name id).targets
      · rw [children_install_of_ne hname hold hplace] at h
        obtain ⟨before, hbefore, rfl⟩ := List.mem_map.mp h
        split
        next => exact .inr rfl
        next => exact .inl hbefore
      · have hnode := node?_install_of_ne hname hold place
        rw [if_neg hplace] at hnode
        unfold Graph.children at h ⊢
        rw [hnode] at h
        exact .inl h

theorem names_prefix_install (registry : Registry α) (name : String) (id : NodeId) :
    registry.names <+: (registry.install name id).names := by
  cases hname : registry.find? name with
  | none =>
    unfold names
    rw [entries_install_of_none id hname, List.map_append]
    exact List.prefix_append _ _
  | some old => rw [names_install_of_some hname]

theorem names_prefix_define (registry : Registry α) (name : String) (node : Node α) :
    registry.names <+: (registry.define name node).2.names :=
  (registry.add node).2.names_prefix_install name _

namespace IsGrounded

variable {registry grown later : Registry α} {policy : LiteralPolicy α}

theorem install (h : registry.graph.IsGrounded) {id : NodeId} (hid : id < registry.graph.nodes.size)
    (name : String) : (registry.install name id).graph.IsGrounded := by
  intro place child hchild
  rw [size_install]
  rcases mem_children_install hchild with hbefore | rfl
  · exact h place child hbefore
  · exact hid

theorem define (h : registry.graph.IsGrounded) {node : Node α}
    (hnode : ∀ child ∈ node.children, child < registry.graph.nodes.size) (name : String) :
    (registry.define name node).2.graph.IsGrounded := by
  have hadded : (registry.add node).2.graph.IsGrounded := by
    intro place child hchild
    have hsize : (registry.add node).2.graph.nodes.size = registry.graph.nodes.size + 1 :=
      Array.size_push _
    rw [hsize]
    by_cases hplace : place = registry.graph.nodes.size
    · rw [hplace, Graph.children_of_node? (registry.node?_add_size node)] at hchild
      exact Nat.lt_succ_of_lt (hnode child hchild)
    · rw [children_add_of_ne hplace] at hchild
      exact Nat.lt_succ_of_lt (h place child hchild)
  exact install hadded (Graph.lt_size_of_node? (registry.node?_add_size node)) name

theorem define_composite (h : registry.graph.IsGrounded) (hclosed : registry.IsClosed)
    {shape : Composite String} {found : Composite NodeId} (hfound : registry.Resolves shape found)
    (name : String) : (registry.define name (.composite found)).2.graph.IsGrounded := by
  refine define h (fun child hchild => ?_) name
  exact hclosed.bounded child (hfound.mem_targets hchild)

theorem grows {bound : Nat} (h : registry.graph.IsGrounded) (hclosed : registry.IsClosed)
    (hgrows : Grows policy bound registry grown) : grown.graph.IsGrounded := by
  induction hgrows with
  | refl => exact h
  | tail hprevious hstep ih =>
    cases hstep with
    | literal _ _ _ _ => exact define ih (by simp [Node.children]) _
    | composite _ _ _ hfound => exact define_composite ih (hclosed.grows hprevious) hfound _

theorem defines {step : Step α} (h : registry.graph.IsGrounded) (hclosed : registry.IsClosed)
    (hstep : Defines policy registry step later) : later.graph.IsGrounded := by
  cases hstep with
  | terminal => exact define h (by simp [Node.children]) _
  | compile hbuilt =>
    cases hbuilt with
    | bare _ hgrows hfound =>
      have hid := mem_targets_iff.mpr ⟨_, hfound⟩
      exact install (grows h hclosed hgrows) ((hclosed.grows hgrows).bounded _ hid) _
    | composite _ hgrows hfound =>
      exact define_composite (grows h hclosed hgrows) (hclosed.grows hgrows) hfound _

end IsGrounded

end Registry

/-- In every state of a session the operands of all nodes are in the table, those of nodes without
a name included. -/
theorem Session.isGrounded_after (policy : LiteralPolicy α) (settings : Settings)
    (entropy : Twister) (steps : List (Step α)) : (after policy settings entropy steps).registry.graph.IsGrounded := by
  have hboth : (after policy settings entropy steps).registry.IsClosed ∧
      (after policy settings entropy steps).registry.graph.IsGrounded := by
    refine @registry_invariant α (fun registry => registry.IsClosed ∧ registry.graph.IsGrounded)
      ⟨isClosed_after policy settings entropy [], ?_⟩ ?_ ?_ policy settings entropy steps
    · intro id child hchild
      simp [Registry.empty, Graph.empty, Graph.children, Graph.node?] at hchild
    · exact fun h hstep => ⟨h.1.defines hstep, Registry.IsGrounded.defines h.2 h.1 hstep⟩
    · exact fun h hgrows => ⟨h.1.grows hgrows, Registry.IsGrounded.grows h.2 h.1 hgrows⟩
  exact hboth.2

namespace Grows

variable {policy : LiteralPolicy α} {bound : Nat} {registry grown : Registry α}

theorem size_le (h : Grows policy bound registry grown) :
    registry.graph.nodes.size ≤ grown.graph.nodes.size := by
  induction h with
  | refl => exact Nat.le_refl _
  | tail _ hstep ih =>
    obtain ⟨new, node, _, _, rfl⟩ := hstep.exists_define
    rw [Registry.size_define]
    omega

/-- Names that are registered on the way have nodes that were added on the way. -/
theorem size_le_of_find? (h : Grows policy bound registry grown) {name : String} {id : NodeId}
    (hnew : registry.find? name = none) (hname : grown.find? name = some id) :
    registry.graph.nodes.size ≤ id := by
  induction h with
  | refl =>
    rw [hnew] at hname
    cases hname
  | tail hprevious hstep ih =>
    obtain ⟨other, node, _, _, rfl⟩ := hstep.exists_define
    rw [Registry.find?_define] at hname
    split at hname
    next =>
      cases hname
      exact size_le hprevious
    next => exact ih hname

theorem names_prefix (h : Grows policy bound registry grown) :
    registry.names <+: grown.names :=
  h.entries_prefix.map Prod.fst

end Grows

namespace Built

variable {policy : LiteralPolicy α} {registry after : Registry α} {name text : String} {id : NodeId}

/-- A build ends with a registration of its name, in a registry that has grown by then and may have
one more node. -/
theorem exists_install (h : Built policy registry name text id after) :
    ∃ (bound : Nat) (grown base : Registry α), Grows policy bound registry grown ∧
      base.entries = grown.entries ∧
      (∀ place node, grown.graph.node? place = some node → base.graph.node? place = some node) ∧
      after = base.install name id := by
  cases h with
  | bare _ hgrows _ => exact ⟨_, _, _, hgrows, rfl, fun _ _ hnode => hnode, rfl⟩
  | @composite shape found grown _ hgrows _ =>
    exact ⟨_, grown, (grown.add (.composite found)).2, hgrows, rfl,
      fun _ _ hnode => Registry.node?_add_of_some hnode _, rfl⟩

theorem names_prefix (h : Built policy registry name text id after) :
    registry.names <+: after.names := by
  obtain ⟨bound, grown, base, hgrows, hentries, _, rfl⟩ := h.exists_install
  have hbase : base.names = grown.names := congrArg (List.map Prod.fst) hentries
  exact hgrows.names_prefix.trans (hbase ▸ base.names_prefix_install name id)

theorem find?_of_ne (h : Built policy registry name text id after) {other : String} {place : NodeId}
    (hne : other ≠ name) (hother : registry.find? other = some place) :
    after.find? other = some place := by
  obtain ⟨bound, grown, base, hgrows, hentries, _, rfl⟩ := h.exists_install
  have hbase : base.find? other = grown.find? other := congrArg (List.lookup other) hentries
  rw [Registry.find?_install, if_neg hne, hbase]
  exact hgrows.find?_eq_some hother

/-- The nodes that were there change only where they refer to the node of the name. A node that the
name got on the way is newer than all of them. -/
theorem exists_node? (h : Built policy registry name text id after)
    (hgrounded : registry.graph.IsGrounded) {place : NodeId} {node : Node α}
    (hnode : registry.graph.node? place = some node) :
    ∃ later, after.graph.node? place = some later ∧ node.Exchanges
      (fun child next => registry.find? name = some child ∧ after.find? name = some next) later := by
  obtain ⟨bound, grown, base, hgrows, hentries, hnodes, rfl⟩ := h.exists_install
  have hbase : base.find? name = grown.find? name := congrArg (List.lookup name) hentries
  obtain ⟨later, hlater, hform, hoperands⟩ :=
    base.exists_node?_install name id (hnodes place node (hgrows.node?_eq_some hnode))
  have hbounded : ∀ child ∈ node.children, child < registry.graph.nodes.size := by
    rw [← Graph.children_of_node? hnode]
    exact hgrounded place
  refine ⟨later, hlater, hform, ?_⟩
  refine (List.forall₂_and_left _ _ |>.mpr ⟨hbounded, hoperands⟩).imp ?_
  rintro child next ⟨hless, hsame | ⟨hname, rfl⟩⟩
  · exact .inl hsame
  · rw [hbase] at hname
    refine .inr ⟨?_, by rw [Registry.find?_install, if_pos rfl]⟩
    cases hbefore : registry.find? name with
    | none => exact absurd hless (Nat.not_lt.mpr (hgrows.size_le_of_find? hbefore hname))
    | some old => rw [← hgrows.find?_eq_some hbefore, hname]

/-- The node of a composite text has the form of the text, whatever becomes of its operands. -/
theorem exists_sameForm (h : Built policy registry name text id after) {shape : Composite String}
    (hread : Rule.read text = .ok (.composite shape)) :
    ∃ found, after.find? name = some id ∧ after.graph.node? id = some (.composite found) ∧
      shape.SameForm found := by
  cases h with
  | bare hbare _ _ =>
    rw [hbare] at hread
    cases hread
  | @composite read found grown hcomposite _ hresolves =>
    obtain rfl : read = shape := by
      rw [hcomposite] at hread
      cases hread
      rfl
    obtain ⟨later, hlater, hform, -⟩ := (grown.add (.composite found)).2.exists_node?_install name
      grown.graph.nodes.size (grown.node?_add_size (.composite found))
    cases hform with
    | composite hsame =>
      refine ⟨_, ?_, hlater, hresolves.form.trans hsame⟩
      rw [Registry.find?_define, if_pos rfl]
      rfl

end Built

/-- The state that a run ends in, whether it succeeds or not. -/
def stateOf {ε σ β : Type} : EStateM.Result ε σ β → σ
  | .ok _ state | .error _ state => state

/-- However it ends, a build has only appended names. -/
theorem names_prefix_build (policy : LiteralPolicy α) (limit : Nat) (name : String) {text : String}
    {rule : Rule} (hread : Rule.read text = .ok rule) (space : Workspace α) :
    space.registry.names <+:
      (stateOf ((build policy limit name rule).run space)).registry.names := by
  have hbuilt := build_isBuilt policy limit name hread space
  cases hresult : (build policy limit name rule).run space with
  | ok id after =>
    rw [hresult] at hbuilt
    exact Built.names_prefix hbuilt
  | error reason after =>
    rw [hresult] at hbuilt
    exact Grows.names_prefix hbuilt

/-- What a compilation that succeeds reports, and that it only registers names with a text. -/
theorem compileRule_reports {policy : LiteralPolicy α} {limit : Nat} {name text : String}
    {rule : Rule} {space after : Workspace α} {compilation : Compilation}
    (hread : Rule.read text = .ok rule) (hroom : text.length < limit)
    (h : (compileRule policy name limit rule).run space = .ok compilation after) :
    compilation.replaced = space.registry.contains name ∧
      compilation.created = after.registry.names.filter (fun new =>
        !space.registry.names.contains new && new != name) ∧
      ∀ new ∈ after.registry.names, new ∉ space.registry.names → new ≠ name → new ≠ "" := by
  simp only [compileRule, EStateM.run] at h
  split at h
  next => cases h
  next plan hcheck =>
    split at h
    next => cases h
    next id built hbuild =>
      cases h
      refine ⟨rfl, rfl, fun new hmem hnew hne => ?_⟩
      obtain ⟨texts, _, hrun⟩ := exists_tracks_of_check hread hcheck
      rw [EStateM.run, hbuild] at hrun
      cases hrun with
      | done _ hsync =>
        have hjustified : plan.IsJustified policy space.registry := by
          have hdecides := check_decides policy space.registry name hread hroom
            (Plan.isJustified_nil policy space.registry space.asked)
          rw [EStateM.run, hcheck] at hdecides
          exact hdecides.1
        have hknows : plan.knows space.registry new = true := by
          have hregistered := (hsync new).trans (Registry.contains_iff_mem_names.mpr hmem)
          simpa [Plan.knows, Plan.add, hne] using hregistered
        have hunknown : ¬space.registry.Has new :=
          fun hhas => hnew (Registry.contains_iff_mem_names.mp hhas)
        exact (hjustified new hknows).ne_empty hunknown

namespace Grammar

/-- A compilation that succeeds appends new names, and reports those of them that were registered on
the way, all of which have a text, and whether its own name was there. No other name is bound anew,
and nodes change only where they referred to the node of the compiled name. -/
theorem compile_changes_reported {grammar after : Grammar α} {name text : String}
    {compilation : Compilation} (hgrounded : grammar.registry.graph.IsGrounded)
    (h : grammar.compile name text = (.ok compilation, after)) :
    (∃ new, after.registry.names = grammar.registry.names ++ new ∧
      (grammar.registry.names ++ new).Nodup ∧ compilation.created = new.filter (· != name) ∧
      ∀ created ∈ compilation.created, created ≠ "") ∧
    (compilation.replaced = true ↔ name ∈ grammar.registry.names) ∧
    (∀ other id, other ≠ name → grammar.registry.find? other = some id →
      after.registry.find? other = some id) ∧
    ∀ id node, grammar.registry.graph.node? id = some node →
      ∃ later, after.registry.graph.node? id = some later ∧ node.Exchanges
        (fun child next =>
          grammar.registry.find? name = some child ∧ after.registry.find? name = some next) later := by
  obtain ⟨id, hbuilt⟩ := compile_eq_ok h
  obtain ⟨rule, hread, hrun⟩ := compile_eq_ok_run h
  obtain ⟨hreplaced, hcreated, hfilled⟩ :=
    compileRule_reports hread (Nat.lt_succ_self text.length) hrun
  obtain ⟨new, hnames⟩ := hbuilt.names_prefix
  have hnodup : (grammar.registry.names ++ new).Nodup := hnames ▸ after.registry.names_nodup
  have hnew : compilation.created = new.filter (· != name) := by
    change compilation.created = after.registry.names.filter (fun other =>
      !grammar.registry.names.contains other && other != name) at hcreated
    rw [hcreated, ← hnames, filter_append_of_nodup hnodup]
  refine ⟨⟨new, hnames.symm, hnodup, hnew, ?_⟩, ?_, fun _ _ => hbuilt.find?_of_ne,
    fun _ _ => hbuilt.exists_node? hgrounded⟩
  · intro created hmem
    rw [hnew] at hmem
    obtain ⟨hother, hne⟩ := List.mem_filter.mp hmem
    have hregistered : created ∈ after.registry.names := hnames ▸ List.mem_append_right _ hother
    have hunknown : created ∉ grammar.registry.names := fun hold =>
      (List.nodup_append.mp hnodup).2.2 created hold created hother rfl
    exact hfilled created hregistered hunknown (bne_iff_ne.mp hne)
  · rw [hreplaced]
    exact Registry.contains_iff_mem_names

/-- A rule with another name and a repetition of it is redefined through both of its names. -/
theorem compile_changes_reported_of_alias :
    let steps : List (Step String) :=
      [.compile "s" "a & b", .compile "t" "s", .compile "u" "s & c & s"]
    let grammar := (Session.after (.every id) {} (.ofSeed 0) steps).grammar
    let after := (grammar.compile "s" "x & s -> t").2
    let compilation : Compilation := ⟨"s", .fallback, true, ["x", "x & s"]⟩
    grammar.registry.graph.IsGrounded ∧
      grammar.compile "s" "x & s -> t" = (.ok compilation, after) ∧
      (∀ created ∈ compilation.created, created ≠ "") ∧ "s" ∈ grammar.registry.names ∧
      grammar.registry.find? "t" = some 2 ∧ after.registry.find? "t" = some 2 ∧
      ∃ later, after.registry.graph.node? 4 = some later ∧
        (Node.composite (.sequence [2, 3, 2]) : Node String).Exchanges (fun child next =>
          grammar.registry.find? "s" = some child ∧ after.registry.find? "s" = some next) later := by
  intro steps grammar after compilation
  have hgrounded : grammar.registry.graph.IsGrounded :=
    Session.isGrounded_after (.every id) {} (.ofSeed 0) steps
  have hcompile : grammar.compile "s" "x & s -> t" = (.ok compilation, after) :=
    Prod.fst_eq_iff.mp (by decide +kernel)
  have halias : grammar.registry.find? "t" = some 2 := by decide +kernel
  have hnode : grammar.registry.graph.node? 4 = some (.composite (.sequence [2, 3, 2])) := by
    decide +kernel
  obtain ⟨⟨_, _, _, _, hfilled⟩, hreplaced, hkept, hnodes⟩ :=
    compile_changes_reported hgrounded hcompile
  exact ⟨hgrounded, hcompile, hfilled, hreplaced.mp rfl, halias, hkept "t" 2 (by decide) halias,
    hnodes 4 _ hnode⟩

end Grammar

end StochasticGrammar
