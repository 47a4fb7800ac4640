import StochasticGrammar.Proofs.DocumentedFaults
import StochasticGrammar.Proofs.RecursionOrder
import StochasticGrammar.Proofs.RegistryClosure

namespace StochasticGrammar

variable {α : Type}

namespace Graph

/-- An edge along which an expansion keeps its depth. -/
def KeepsDepth (graph : Graph α) (parent child : NodeId) : Prop :=
  child ∈ graph.depthPreserving parent

/-- Distinct nodes along edges that keep the depth, and the first of them again at the end. -/
def IsCycle (graph : Graph α) (cycle : List NodeId) : Prop :=
  ∃ first rest, cycle = first :: rest ++ [first] ∧ (first :: rest).Nodup ∧
    cycle.IsChain graph.KeepsDepth

/-- A search has gone from node to node along edges that keep the depth, the newest first, and only
such edges are left to be followed. -/
structure OnTrail (graph : Graph α) (inside : NodeId → Prop) (frames : List Frame)
    (visited : List NodeId) : Prop where
  linked : (frames.map Frame.node).IsChain fun child parent => graph.KeepsDepth parent child
  remaining : ∀ frame ∈ frames, ∀ child ∈ frame.remaining, graph.KeepsDepth frame.node child
  nodup : (frames.map Frame.node).Nodup
  visited : frames.map Frame.node ⊆ visited
  inside : ∀ id ∈ frames.map Frame.node, inside id

namespace OnTrail

variable {graph : Graph α} {inside : NodeId → Prop} {below : List Frame}
  {visited remaining : List NodeId} {node child : NodeId}

theorem nil : graph.OnTrail inside [] visited where
  linked := List.isChain_nil
  remaining := by simp
  nodup := List.nodup_nil
  visited := List.nil_subset visited
  inside := by simp

theorem start (hinside : inside node) :
    graph.OnTrail inside [⟨node, graph.depthPreserving node⟩] (node :: visited) where
  linked := List.isChain_singleton node
  remaining := by
    intro frame hframe child hchild
    rw [List.mem_singleton.mp hframe] at hchild ⊢
    exact hchild
  nodup := List.nodup_singleton node
  visited := by simp
  inside := by simpa using hinside

theorem tail {frame : Frame} (h : graph.OnTrail inside (frame :: below) visited) :
    graph.OnTrail inside below visited where
  linked := h.linked.tail
  remaining other hother := h.remaining other (List.mem_cons_of_mem frame hother)
  nodup := h.nodup.tail
  visited := (List.cons_subset.mp h.visited).2
  inside id hid := h.inside id (List.mem_cons_of_mem frame.node hid)

theorem keepsDepth (h : graph.OnTrail inside (⟨node, child :: remaining⟩ :: below) visited) :
    graph.KeepsDepth node child :=
  h.remaining _ List.mem_cons_self child List.mem_cons_self

theorem advance (h : graph.OnTrail inside (⟨node, child :: remaining⟩ :: below) visited) :
    graph.OnTrail inside (⟨node, remaining⟩ :: below) visited where
  linked := h.linked
  remaining := by
    refine List.forall_mem_cons.mpr ⟨fun other hother => ?_, h.tail.remaining⟩
    exact h.remaining _ List.mem_cons_self other (List.mem_cons_of_mem child hother)
  nodup := h.nodup
  visited := h.visited
  inside := h.inside

/-- The next operand of the newest node is entered if it has not been visited. -/
theorem push (h : graph.OnTrail inside (⟨node, child :: remaining⟩ :: below) visited)
    (hchild : child ∉ visited) (hinside : inside child) :
    graph.OnTrail inside
      (⟨child, graph.depthPreserving child⟩ :: ⟨node, remaining⟩ :: below) (child :: visited) where
  linked := List.isChain_cons_cons.mpr ⟨h.keepsDepth, h.linked⟩
  remaining := List.forall_mem_cons.mpr ⟨fun _ hother => hother, h.advance.remaining⟩
  nodup := List.nodup_cons.mpr ⟨fun hmem => hchild (h.visited hmem), h.nodup⟩
  visited := List.cons_subset_cons child h.visited
  inside := List.forall_mem_cons.mpr ⟨hinside, h.inside⟩

/-- An operand that is on the trail already closes a cycle of nodes of the trail. -/
theorem isCycle_closedPath
    (h : graph.OnTrail inside (⟨node, child :: remaining⟩ :: below) visited)
    (hchild : child ∈ (Frame.mk node remaining :: below).map Frame.node) :
    graph.IsCycle (closedPath child (⟨node, remaining⟩ :: below)) ∧
      ∀ id ∈ closedPath child (⟨node, remaining⟩ :: below), inside id := by
  have hlinked : (child :: (Frame.mk node remaining :: below).map Frame.node).IsChain
      fun child parent => graph.KeepsDepth parent child :=
    List.isChain_cons_cons.mpr ⟨h.keepsDepth, h.advance.linked⟩
  have hnodup := h.advance.nodup
  have hinside := h.advance.inside
  obtain ⟨front, back, hsplit, hfront⟩ := List.eq_append_cons_of_mem hchild
  have hpath : closedPath child (⟨node, remaining⟩ :: below) =
      child :: front.reverse ++ [child] := by
    have hdiffer : ∀ id ∈ front, decide (id ≠ child) = true := by
      intro id hid
      exact decide_eq_true fun heq => hfront (heq ▸ hid)
    unfold closedPath
    rw [hsplit, List.takeWhile_append_of_pos hdiffer]
    simp
  rw [hsplit] at hlinked hnodup hinside
  rw [hpath]
  refine ⟨⟨child, front.reverse, rfl, ?_, ?_⟩, ?_⟩
  · have hcut : (front ++ [child]).Nodup := by
      refine hnodup.sublist ?_
      rw [List.append_sublist_append_left]
      exact List.singleton_sublist.mpr List.mem_cons_self
    simpa using List.nodup_reverse.mpr hcut
  · have hcut : (child :: (front ++ [child])).IsChain
        fun child parent => graph.KeepsDepth parent child := by
      refine hlinked.prefix ⟨back, ?_⟩
      simp
    simpa using List.isChain_reverse.mpr hcut
  · intro id hid
    refine hinside id ?_
    simp only [List.mem_append, List.mem_cons, List.mem_reverse] at hid ⊢
    tauto

end OnTrail

variable {graph : Graph α} {inside : NodeId → Prop}

/-- A search reports cycles only, and only of nodes that its roots lead to. -/
theorem isCycle_of_mem_cyclesFrom {frames : List Frame} {roots visited cycle : List NodeId}
    (hclosed : ∀ id, inside id → ∀ child, graph.KeepsDepth id child → inside child)
    (htrail : graph.OnTrail inside frames visited) (hroots : ∀ root ∈ roots, inside root)
    (hcycle : cycle ∈ graph.cyclesFrom frames roots visited) :
    graph.IsCycle cycle ∧ ∀ id ∈ cycle, inside id := by
  fun_induction cyclesFrom graph frames roots visited with
  | case1 visited => simp at hcycle
  | case2 visited root later hvisited ih =>
    exact ih htrail (fun other hother => hroots other (List.mem_cons_of_mem root hother)) hcycle
  | case3 visited root later hvisited ih =>
    have hroot := hroots root List.mem_cons_self
    have hlater : ∀ other ∈ later, inside other :=
      fun other hother => hroots other (List.mem_cons_of_mem root hother)
    exact ih (.start hroot) hlater hcycle
  | case4 roots visited node below ih => exact ih htrail.tail hroots hcycle
  | case5 roots visited node child remaining below frames hpath =>
    rename_i ih
    rcases List.mem_cons.mp hcycle with rfl | hlater
    · exact htrail.isCycle_closedPath hpath
    · exact ih htrail.advance hroots hlater
  | case6 roots visited node child remaining below frames hpath hvisited =>
    rename_i ih
    exact ih htrail.advance hroots hcycle
  | case7 roots visited node child remaining below frames hpath hvisited =>
    rename_i ih
    have hnode := htrail.inside node List.mem_cons_self
    have hinside := hclosed node hnode child htrail.keepsDepth
    exact ih (htrail.push hvisited hinside) hroots hcycle

/-- From a node of an end of an order, edges that keep the depth and are not excepted lead to nodes
of shorter ends. -/
theorem Ordered.exists_suffix_of_transGen {excepted : NodeId → NodeId → Prop}
    {order tail : List NodeId} {id other : NodeId} (h : graph.Ordered excepted order)
    (htail : tail <:+ order) (hid : id ∈ tail)
    (hpath : Relation.TransGen
      (fun parent child => graph.KeepsDepth parent child ∧ ¬excepted parent child) id other) :
    ∃ rest, rest <:+ order ∧ rest.length < tail.length ∧ other ∈ rest := by
  induction hpath with
  | single hedge =>
    obtain ⟨rest, hrest, hless, hlater⟩ := h.exists_suffix htail hid
    exact ⟨rest, hrest, hless, (hlater _ hedge.1).resolve_right hedge.2⟩
  | tail _ hedge ih =>
    obtain ⟨between, hbetween, hshort, hmem⟩ := ih
    obtain ⟨rest, hrest, hless, hlater⟩ := h.exists_suffix hbetween hmem
    exact ⟨rest, hrest, by omega, (hlater _ hedge.1).resolve_right hedge.2⟩

/-- No cycle of edges that keep the depth goes without an excepted edge. -/
theorem Ordered.not_transGen_self {excepted : NodeId → NodeId → Prop} {order tail : List NodeId}
    {id : NodeId} (h : graph.Ordered excepted order) (htail : tail <:+ order) (hid : id ∈ tail) :
    ¬Relation.TransGen
      (fun parent child => graph.KeepsDepth parent child ∧ ¬excepted parent child) id id := by
  intro hcycle
  induction hlength : tail.length using Nat.strong_induction_on generalizing tail with
  | h length ih =>
    obtain ⟨rest, hrest, hless, hmem⟩ := h.exists_suffix_of_transGen htail hid hcycle
    exact ih rest.length (by omega) hrest hmem rfl

/-- A closed walk along edges is a path from its first node to itself. -/
theorem transGen_of_isChain {edge : NodeId → NodeId → Prop} {first last : NodeId}
    {rest : List NodeId} (h : (first :: rest ++ [last]).IsChain edge) :
    Relation.TransGen edge first last := by
  induction rest generalizing first with
  | nil => exact .single (List.isChain_pair.mp h)
  | cons next later ih =>
    obtain ⟨hedge, hlater⟩ := List.isChain_cons_cons.mp h
    exact .head hedge (ih hlater)

end Graph

namespace Registry

variable {registry : Registry α}

/-- What a registered node is called is the first of its names. -/
theorem find?_label {id : NodeId} (h : id ∈ registry.targets) :
    registry.find? (registry.label id) = some id := by
  obtain ⟨entry, hentry, htarget⟩ := List.mem_map.mp h
  cases hfirst : registry.entries.find? (·.2 = id) with
  | none =>
    have hother := List.find?_eq_none.mp hfirst entry hentry
    exact absurd htarget (by simpa using hother)
  | some first =>
    have hid : first.2 = id := by simpa using List.find?_some hfirst
    have hlabel : registry.label id = first.1 := by simp [label, nameOf?, hfirst]
    rw [hlabel, ← hid]
    exact find?_eq_some_iff_mem.mpr (List.mem_of_find?_eq_some hfirst)

theorem isCycle_of_mem_unboundedCycles {cycle : List NodeId}
    (h : cycle ∈ registry.unboundedCycles) :
    registry.graph.IsCycle cycle ∧ ∀ id ∈ cycle, registry.Reaches id := by
  have hclosed : ∀ id, registry.Reaches id → ∀ child, registry.graph.KeepsDepth id child →
      registry.Reaches child :=
    fun id hid child hchild => .child hid (Graph.depthPreserving_subset _ _ hchild)
  exact Graph.isCycle_of_mem_cyclesFrom hclosed .nil
    (fun root hroot => mem_reachable_iff.mp hroot) h

/-- Only edges that close a reported cycle close a cycle at all. -/
theorem not_transGen_self_of_not_closes {id : NodeId} (h : registry.Reaches id) :
    ¬Relation.TransGen (fun parent child =>
      registry.graph.KeepsDepth parent child ∧ ¬registry.Closes parent child) id id := by
  obtain ⟨order, hordered, _, hmem⟩ := registry.exists_ordered
  exact hordered.not_transGen_self List.suffix_rfl ((hmem id).mpr h)

/-- One name leads to another along an edge that keeps the depth. -/
def LeadsTo (registry : Registry α) (name next : String) : Prop :=
  ∃ id child, registry.find? name = some id ∧ registry.find? next = some child ∧
    registry.graph.KeepsDepth id child

/-- An edge between the nodes of the last two names of one of some lists of names. -/
def IsLastEdge (registry : Registry α) (reported : List (List String)) (parent child : NodeId) :
    Prop :=
  ∃ initial name next, initial ++ [name, next] ∈ reported ∧ registry.find? name = some parent ∧
    registry.find? next = some child

theorem IsClosed.find?_label_of_reaches (hclosed : registry.IsClosed) {id : NodeId}
    (h : registry.Reaches id) : registry.find? (registry.label id) = some id :=
  find?_label (hclosed.mem_targets_of_reaches h)

theorem IsClosed.isLastEdge (hclosed : registry.IsClosed) {parent child : NodeId}
    (h : registry.Closes parent child) :
    registry.IsLastEdge (registry.unboundedCycles.map registry.cycleNames) parent child := by
  obtain ⟨initial, hcycle⟩ := h
  have hreaches := (isCycle_of_mem_unboundedCycles hcycle).2
  refine ⟨initial.map registry.label, _, _, List.mem_map.mpr ⟨_, hcycle, ?_⟩,
    hclosed.find?_label_of_reaches (hreaches parent (by simp)),
    hclosed.find?_label_of_reaches (hreaches child (by simp))⟩
  simp [cycleNames]

/-- Distinct nodes have distinct names, so that the names of a cycle tell its nodes apart. -/
theorem IsClosed.cycleNames_eq (hclosed : registry.IsClosed) {cycle : List NodeId}
    (h : cycle ∈ registry.unboundedCycles) :
    ∃ first rest, registry.cycleNames cycle = first :: rest ++ [first] ∧ (first :: rest).Nodup ∧
      (registry.cycleNames cycle).IsChain registry.LeadsTo := by
  obtain ⟨⟨first, rest, rfl, hnodup, hlinked⟩, hreaches⟩ := isCycle_of_mem_unboundedCycles h
  have hlabel : ∀ id ∈ first :: rest ++ [first], registry.find? (registry.label id) = some id :=
    fun id hid => hclosed.find?_label_of_reaches (hreaches id hid)
  refine ⟨registry.label first, rest.map registry.label, by simp [cycleNames], ?_, ?_⟩
  · rw [← List.map_cons]
    refine hnodup.map_on fun id hid other hother heq => ?_
    have hsame := hlabel id (List.mem_append_left [first] hid)
    rw [heq, hlabel other (List.mem_append_left [first] hother)] at hsame
    exact (Option.some.inj hsame).symm
  · unfold cycleNames
    rw [List.isChain_map]
    refine (List.IsChain.iff_mem.mp hlinked).imp fun id child hedge => ?_
    exact ⟨id, child, hlabel id hedge.1, hlabel child hedge.2.1, hedge.2.2⟩

/-- Without the edges that end a reported cycle there is no cycle. -/
theorem IsClosed.not_transGen_self (hclosed : registry.IsClosed) {id : NodeId}
    (h : registry.Reaches id) :
    ¬Relation.TransGen (fun parent child => registry.graph.KeepsDepth parent child ∧
      ¬registry.IsLastEdge (registry.unboundedCycles.map registry.cycleNames) parent child) id id := by
  intro hcycle
  refine not_transGen_self_of_not_closes h (Relation.TransGen.mono ?_ _ _ hcycle)
  exact fun parent child hedge => ⟨hedge.1, fun hcloses => hedge.2 (hclosed.isLastEdge hcloses)⟩

theorem IsClosed.exists_isLastEdge (hclosed : registry.IsClosed) {first : NodeId}
    {rest : List NodeId} (hfirst : registry.Reaches first)
    (hwalk : (first :: rest ++ [first]).IsChain registry.graph.KeepsDepth) :
    ∃ before parent child later, first :: rest ++ [first] = before ++ parent :: child :: later ∧
      registry.IsLastEdge (registry.unboundedCycles.map registry.cycleNames) parent child := by
  by_contra hnone
  refine hclosed.not_transGen_self hfirst (@Graph.transGen_of_isChain _ first first rest ?_)
  refine List.isChain_iff_forall_rel_of_append_cons_cons.mpr ?_
  intro parent child before later hsplit
  refine ⟨List.isChain_iff_forall_rel_of_append_cons_cons.mp hwalk hsplit, fun hlast => ?_⟩
  exact hnone ⟨before, parent, child, later, hsplit, hlast⟩

theorem IsClosed.unboundedCycles_eq_nil_iff (hclosed : registry.IsClosed) :
    registry.unboundedCycles = [] ↔
      ∀ id, registry.Reaches id → ¬Relation.TransGen registry.graph.KeepsDepth id id := by
  constructor
  · intro hempty id hid hcycle
    refine hclosed.not_transGen_self hid (Relation.TransGen.mono ?_ _ _ hcycle)
    rintro parent child hedge
    refine ⟨hedge, ?_⟩
    rintro ⟨initial, name, next, hmem, _⟩
    simp [hempty] at hmem
  · intro hnone
    refine List.eq_nil_iff_forall_not_mem.mpr fun cycle hcycle => ?_
    obtain ⟨⟨first, rest, rfl, _, hwalk⟩, hreaches⟩ := isCycle_of_mem_unboundedCycles hcycle
    exact hnone first (hreaches first (by simp)) (Graph.transGen_of_isChain hwalk)

end Registry

theorem Registry.mem_problemsAt_iff {registry : Registry α} {id : NodeId} {problem : Problem} :
    problem ∈ registry.problemsAt id ↔ problem = .deadSelect id ∧
      ∃ options, registry.graph.node? id = some (.composite (.select options)) ∧
        totalWeight options ≤ 0 := by
  unfold problemsAt
  split
  next options hnode => by_cases htotal : totalWeight options ≤ 0 <;> simp [hnode, htotal]
  next hnode =>
    refine iff_of_false List.not_mem_nil ?_
    rintro ⟨_, options, hoptions, _⟩
    exact hnode options hoptions

/-- The errors of the reachable nodes come before those of the cycles. -/
theorem Registry.report_eq {registry : Registry α} {mode : RepetitionMode} {report : Report}
    (h : registry.validate mode = .ok report) :
    ∃ found, registry.reachable.mapM (registry.cautionsAt mode) = .ok found ∧
      report.problems = registry.reachable.flatMap registry.problemsAt ++
        registry.unboundedCycles.map .unboundedRecursion ∧
      report.cautions = found.flatten := by
  unfold Registry.validate at h
  obtain ⟨found, hfound, hreport⟩ := bind_eq_ok h
  cases hreport
  exact ⟨found, hfound, rfl, rfl⟩

theorem Report.cycles_eq {registry : Registry α} {mode : RepetitionMode} {report : Report}
    (h : registry.validate mode = .ok report) : report.cycles = registry.unboundedCycles := by
  obtain ⟨_, _, hproblems, _⟩ := Registry.report_eq h
  have hnodes : cycles ⟨registry.reachable.flatMap registry.problemsAt, []⟩ = [] := by
    refine List.filterMap_eq_nil_iff.mpr fun problem hproblem => ?_
    obtain ⟨id, _, hid⟩ := List.mem_flatMap.mp hproblem
    rw [(Registry.mem_problemsAt_iff.mp hid).1]
  unfold cycles at hnodes ⊢
  rw [hproblems, List.filterMap_append, hnodes, List.nil_append, List.filterMap_map]
  exact List.filterMap_some

namespace Session

/-- In every state of a session, a reported cycle is a list of distinct names, closed on the first,
in which every name leads to the next one along an edge that keeps the depth. Every closed walk of
such edges has an edge that ends a reported cycle, so that nothing is reported exactly where there
is no cycle. -/
theorem cycles_reported (policy : LiteralPolicy α) (settings : Settings) (entropy : Twister)
    (steps : List (Step α)) :
    let reached := after policy settings entropy steps
    let graph := reached.registry.graph
    ∃ report, reached.grammar.validate = .ok report ∧
      let reported := report.cycles.map reached.registry.cycleNames
      (∀ names ∈ reported, ∃ first rest, names = first :: rest ++ [first] ∧
        (first :: rest).Nodup ∧ names.IsChain reached.registry.LeadsTo) ∧
      (∀ first rest, reached.registry.Reaches first →
        (first :: rest ++ [first]).IsChain graph.KeepsDepth →
          ∃ before parent child later,
            first :: rest ++ [first] = before ++ parent :: child :: later ∧
            reached.registry.IsLastEdge reported parent child) ∧
      (∀ id, reached.registry.Reaches id → ¬Relation.TransGen (fun parent child =>
        graph.KeepsDepth parent child ∧ ¬reached.registry.IsLastEdge reported parent child) id id) ∧
      (reported = [] ↔ ∀ id, reached.registry.Reaches id →
        ¬Relation.TransGen graph.KeepsDepth id id) := by
  intro reached graph
  have hclosed : reached.registry.IsClosed := isClosed_after policy settings entropy steps
  obtain ⟨report, hreport⟩ := (isSound_after policy settings entropy steps).exists_report
    reached.grammar.settings.mode
  refine ⟨report, hreport, ?_⟩
  rw [Report.cycles_eq hreport]
  intro reported
  refine ⟨?_, fun _ _ => hclosed.exists_isLastEdge, fun _ => hclosed.not_transGen_self, ?_⟩
  · intro names hnames
    obtain ⟨cycle, hcycle, rfl⟩ := List.mem_map.mp hnames
    exact hclosed.cycleNames_eq hcycle
  · exact List.map_eq_nil_iff.trans hclosed.unboundedCycles_eq_nil_iff

/-- A rule that refers to itself twice, and two rules that refer to each other. -/
theorem cycles_reported_of_mutual_recursion :
    let steps : List (Step String) :=
      [.compile "s" "a & s & s", .compile "v" "u", .compile "t" "2 s | 1 u", .compile "u" "t -> t"]
    let registry := (after (.every id) {} (.ofSeed 0) steps).registry
    let reported := [["s", "s"], ["s", "s"], ["t", "u", "t"]]
    registry.Reaches 5 ∧ [5, 4, 5].IsChain registry.graph.KeepsDepth ∧
      (∃ before parent child later, [5, 4, 5] = before ++ parent :: child :: later ∧
        registry.IsLastEdge reported parent child) ∧
      ¬Relation.TransGen (fun parent child =>
        registry.graph.KeepsDepth parent child ∧ ¬registry.IsLastEdge reported parent child) 5 5 := by
  intro steps registry reported
  obtain ⟨report, hreport, _, hwalks, hremaining, _⟩ :=
    cycles_reported (.every id) {} (.ofSeed 0) steps
  have hreported : report.cycles.map registry.cycleNames = reported := by
    have hvalidate : (after (.every id) {} (.ofSeed 0) steps).grammar.validate.map
        (fun report => report.cycles.map registry.cycleNames) = .ok reported := by decide +kernel
    rw [hreport] at hvalidate
    exact Except.ok.inj hvalidate
  have hname : registry.find? "u" = some 5 := by decide +kernel
  have hreaches : registry.Reaches 5 := .root (Registry.mem_targets_iff.mpr ⟨"u", hname⟩)
  have hwalk : [5, 4, 5].IsChain registry.graph.KeepsDepth := by
    have hforth : 4 ∈ registry.graph.depthPreserving 5 := by decide +kernel
    have hback : 5 ∈ registry.graph.depthPreserving 4 := by decide +kernel
    exact List.isChain_cons_cons.mpr ⟨hforth, List.isChain_pair.mpr hback⟩
  rw [← hreported]
  exact ⟨hreaches, hwalk, hwalks 5 [4] hreaches hwalk, hremaining 5 hreaches⟩

end Session

end StochasticGrammar
