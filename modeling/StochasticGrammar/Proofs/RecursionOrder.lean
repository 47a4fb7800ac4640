import StochasticGrammar.Graph.Traversal
import StochasticGrammar.Proofs.ReachableNodes
import Mathlib.Data.List.Basic

namespace StochasticGrammar

variable {α : Type}

namespace Graph

/-- Every node of a list leads only to later ones along edges that keep the depth, but for excepted
edges. -/
def Ordered (graph : Graph α) (excepted : NodeId → NodeId → Prop) : List NodeId → Prop
  | [] => True
  | id :: rest =>
    (∀ child ∈ graph.depthPreserving id, child ∈ rest ∨ excepted id child) ∧
      graph.Ordered excepted rest

/-- The operands that the frames of a path have followed were left since, or are excepted, or are
the node of the frame above. -/
def Followed (graph : Graph α) (excepted : NodeId → NodeId → Prop) (left : List NodeId) :
    Option NodeId → List Frame → Prop
  | _, [] => True
  | above, frame :: below =>
    (∃ followed, graph.depthPreserving frame.node = followed ++ frame.remaining ∧
      ∀ child ∈ followed, child ∈ left ∨ excepted frame.node child ∨ above = some child) ∧
    graph.Followed excepted left (some frame.node) below

/-- A search on its way: the nodes that it has visited are on its path or were left, in order. -/
structure Searching (graph : Graph α) (excepted : NodeId → NodeId → Prop)
    (inside : NodeId → Prop) (frames : List Frame) (visited left : List NodeId) : Prop where
  ordered : graph.Ordered excepted left
  followed : graph.Followed excepted left none frames
  visited_iff : ∀ id, id ∈ visited ↔ id ∈ frames.map Frame.node ++ left
  nodup : (frames.map Frame.node ++ left).Nodup
  inside : ∀ id ∈ frames.map Frame.node ++ left, inside id

end Graph

theorem closedPath_eq_append (child node : NodeId) (remaining : List NodeId) (below : List Frame) :
    ∃ initial, closedPath child (⟨node, remaining⟩ :: below) = initial ++ [node, child] := by
  unfold closedPath
  by_cases hnode : node = child
  · exact ⟨[], by simp [hnode]⟩
  · exact ⟨child :: ((below.map Frame.node).takeWhile (· ≠ child)).reverse, by simp [hnode]⟩

namespace Graph

theorem depthPreserving_subset (graph : Graph α) (id : NodeId) :
    graph.depthPreserving id ⊆ graph.children id := by
  unfold depthPreserving children
  cases graph.node? id with
  | none => exact List.Subset.refl _
  | some node =>
    cases node with
    | leaf value => exact List.Subset.refl _
    | composite shape =>
      cases shape with
      | fallback primary alternate => exact List.subset_cons_self primary [alternate]
      | sequence _ => exact List.Subset.refl _
      | select _ => exact List.Subset.refl _
      | repetition _ _ => exact List.Subset.refl _

variable {graph : Graph α} {excepted : NodeId → NodeId → Prop} {inside : NodeId → Prop}
  {visited left : List NodeId} {node : NodeId} {remaining : List NodeId} {below : List Frame}

theorem Followed.pop (h : graph.Followed excepted left (some node) below) :
    graph.Followed excepted (node :: left) none below := by
  have hmono : ∀ above frames, graph.Followed excepted left above frames →
      graph.Followed excepted (node :: left) above frames := by
    intro above frames hframes
    induction frames generalizing above with
    | nil => trivial
    | cons frame rest ih =>
      obtain ⟨⟨followed, hsplit, hfollowed⟩, hrest⟩ := hframes
      refine ⟨⟨followed, hsplit, fun child hchild => ?_⟩, ih _ hrest⟩
      exact (hfollowed child hchild).imp_left (List.mem_cons_of_mem node)
  cases below with
  | nil => trivial
  | cons frame rest =>
    obtain ⟨⟨followed, hsplit, hfollowed⟩, hrest⟩ := h
    refine ⟨⟨followed, hsplit, fun child hchild => ?_⟩, hmono _ rest hrest⟩
    rcases hfollowed child hchild with hleft | hexcepted | habove
    · exact .inl (List.mem_cons_of_mem node hleft)
    · exact .inr (.inl hexcepted)
    · cases habove
      exact .inl List.mem_cons_self

theorem Followed.advance {child : NodeId} {above : Option NodeId}
    (h : graph.Followed excepted left none (⟨node, child :: remaining⟩ :: below))
    (hchild : child ∈ left ∨ excepted node child ∨ above = some child) :
    graph.Followed excepted left above (⟨node, remaining⟩ :: below) := by
  obtain ⟨⟨followed, hsplit, hfollowed⟩, hrest⟩ := h
  refine ⟨⟨followed ++ [child], by simpa using hsplit, fun other hother => ?_⟩, hrest⟩
  rcases List.mem_append.mp hother with hearlier | hlast
  · rcases hfollowed other hearlier with hleft | hexcepted | hnone
    · exact .inl hleft
    · exact .inr (.inl hexcepted)
    · cases hnone
  · rw [List.mem_singleton.mp hlast]
    exact hchild

namespace Searching

/-- A new node is entered from the path as it is, or after one more operand of its newest node. -/
theorem push {frames advanced : List Frame}
    (h : graph.Searching excepted inside frames visited left)
    (hnodes : advanced.map Frame.node = frames.map Frame.node)
    (hfollowed : graph.Followed excepted left (some node) advanced) (hnode : node ∉ visited)
    (hinside : inside node) :
    graph.Searching excepted inside (⟨node, graph.depthPreserving node⟩ :: advanced)
      (node :: visited) left where
  ordered := h.ordered
  followed := ⟨⟨[], rfl, by simp⟩, hfollowed⟩
  visited_iff id := by
    simp only [List.map_cons, List.cons_append, List.mem_cons, hnodes, h.visited_iff id]
  nodup := by
    simp only [List.map_cons, List.cons_append, hnodes]
    exact List.nodup_cons.mpr ⟨fun hmem => hnode ((h.visited_iff node).mpr hmem), h.nodup⟩
  inside id hid := by
    simp only [List.map_cons, List.cons_append, hnodes] at hid
    rcases List.mem_cons.mp hid with rfl | hrest
    · exact hinside
    · exact h.inside id hrest

theorem leave (h : graph.Searching excepted inside (⟨node, []⟩ :: below) visited left) :
    graph.Searching excepted inside below visited (node :: left) where
  ordered := by
    obtain ⟨⟨followed, hsplit, hfollowed⟩, _⟩ := h.followed
    refine ⟨fun child hchild => ?_, h.ordered⟩
    rw [hsplit, List.append_nil] at hchild
    rcases hfollowed child hchild with hleft | hexcepted | hnone
    · exact .inl hleft
    · exact .inr hexcepted
    · cases hnone
  followed := h.followed.2.pop
  visited_iff id := by
    rw [h.visited_iff id]
    exact (List.perm_middle.mem_iff).symm
  nodup := (List.perm_middle.nodup_iff).mpr h.nodup
  inside id hid := h.inside id ((List.perm_middle.mem_iff).mp hid)

theorem advance {child : NodeId}
    (h : graph.Searching excepted inside (⟨node, child :: remaining⟩ :: below) visited left)
    (hchild : child ∈ left ∨ excepted node child) :
    graph.Searching excepted inside (⟨node, remaining⟩ :: below) visited left where
  ordered := h.ordered
  followed := h.followed.advance (hchild.imp_right .inl)
  visited_iff := h.visited_iff
  nodup := h.nodup
  inside := h.inside

end Searching

/-- A search that is on its way ends with all that it has visited, and its roots, in order. -/
theorem exists_ordered {frames : List Frame} {roots : List NodeId}
    (hsearching : graph.Searching excepted inside frames visited left)
    (hclosed : ∀ id, inside id → ∀ child ∈ graph.depthPreserving id, inside child)
    (hroots : ∀ root ∈ roots, inside root)
    (hexcepted : ∀ cycle ∈ graph.cyclesFrom frames roots visited, ∀ initial parent child,
      cycle = initial ++ [parent, child] → excepted parent child) :
    ∃ order, graph.Ordered excepted order ∧ order.Nodup ∧ (∀ id ∈ order, inside id) ∧
      visited ⊆ order ∧ roots ⊆ order := by
  fun_induction cyclesFrom graph frames roots visited generalizing left with
  | case1 visited =>
    refine ⟨left, hsearching.ordered, hsearching.nodup, hsearching.inside, ?_, by simp⟩
    exact fun id hid => (hsearching.visited_iff id).mp hid
  | case2 visited root later hvisited ih =>
    obtain ⟨order, hordered, hnodup, hinside, hsubset, hlater⟩ :=
      ih hsearching (fun other hother => hroots other (List.mem_cons_of_mem root hother)) hexcepted
    exact ⟨order, hordered, hnodup, hinside, hsubset,
      List.cons_subset.mpr ⟨hsubset hvisited, hlater⟩⟩
  | case3 visited root later hvisited ih =>
    have hpushed := hsearching.push rfl trivial hvisited (hroots root List.mem_cons_self)
    obtain ⟨order, hordered, hnodup, hinside, hsubset, hlater⟩ :=
      ih hpushed (fun other hother => hroots other (List.mem_cons_of_mem root hother)) hexcepted
    obtain ⟨hroot, hbefore⟩ := List.cons_subset.mp hsubset
    exact ⟨order, hordered, hnodup, hinside, hbefore, List.cons_subset.mpr ⟨hroot, hlater⟩⟩
  | case4 roots visited node below ih => exact ih hsearching.leave hroots hexcepted
  | case5 roots visited node child remaining below frames hcycle =>
    rename_i ih
    obtain ⟨initial, hlast⟩ := closedPath_eq_append child node remaining below
    have hedge := hexcepted _ List.mem_cons_self initial node child hlast
    exact ih (hsearching.advance (.inr hedge)) hroots
      fun cycle hmem => hexcepted cycle (List.mem_cons_of_mem _ hmem)
  | case6 roots visited node child remaining below frames hcycle hvisited =>
    rename_i ih
    -- a node that was visited and is not on the path was left before this one
    have hmem := (hsearching.visited_iff child).mp hvisited
    have hleft : child ∈ left := (List.mem_append.mp hmem).resolve_left hcycle
    exact ih (hsearching.advance (.inl hleft)) hroots hexcepted
  | case7 roots visited node child remaining below frames hcycle hvisited =>
    rename_i ih
    obtain ⟨⟨followed, hsplit, _⟩, _⟩ := hsearching.followed
    have hchild : child ∈ graph.depthPreserving node := by simp [hsplit]
    have hinside := hclosed node (hsearching.inside node List.mem_cons_self) child hchild
    have hfollowed := hsearching.followed.advance (.inr (.inr rfl))
    obtain ⟨order, hordered, hnodup, hinside, hsubset, hlater⟩ :=
      ih (hsearching.push rfl hfollowed hvisited hinside) hroots hexcepted
    exact ⟨order, hordered, hnodup, hinside, (List.cons_subset.mp hsubset).2, hlater⟩

theorem Ordered.mono {wider : NodeId → NodeId → Prop} {order : List NodeId}
    (h : graph.Ordered excepted order) (hwider : ∀ parent child, excepted parent child →
      wider parent child) : graph.Ordered wider order := by
  induction order with
  | nil => trivial
  | cons first later ih =>
    exact ⟨fun child hchild => (h.1 child hchild).imp_right (hwider first child), ih h.2⟩

/-- Along edges that keep the depth a node of an end of the order leads to a shorter end. -/
theorem Ordered.exists_suffix {order tail : List NodeId} {id : NodeId}
    (h : graph.Ordered excepted order) (htail : tail <:+ order) (hid : id ∈ tail) :
    ∃ rest, rest <:+ order ∧ rest.length < tail.length ∧
      ∀ child ∈ graph.depthPreserving id, child ∈ rest ∨ excepted id child := by
  obtain ⟨front, rest, rfl⟩ := List.append_of_mem hid
  have hsuffix : id :: rest <:+ order := (List.suffix_append front _).trans htail
  have hlength : rest.length < (front ++ id :: rest).length := by
    simp only [List.length_append, List.length_cons]
    omega
  refine ⟨rest, (List.suffix_cons id rest).trans hsuffix, hlength, ?_⟩
  clear htail
  induction order with
  | nil => simp at hsuffix
  | cons first later ih =>
    rcases List.suffix_cons_iff.mp hsuffix with heq | hlater
    · cases heq
      exact h.1
    · exact ih h.2 hlater

end Graph

namespace Registry

/-- An edge that closes a cycle which is reported. -/
def Closes (registry : Registry α) (parent child : NodeId) : Prop :=
  ∃ initial, initial ++ [parent, child] ∈ registry.unboundedCycles

/-- The reachable nodes in an order in which only edges that close a reported cycle lead back. -/
theorem exists_ordered (registry : Registry α) :
    ∃ order, registry.graph.Ordered registry.Closes order ∧ order.Nodup ∧
      ∀ id, id ∈ order ↔ registry.Reaches id := by
  have hsearching : registry.graph.Searching registry.Closes registry.Reaches [] [] [] :=
    ⟨trivial, trivial, by simp, List.nodup_nil, by simp⟩
  have hclosed : ∀ id, registry.Reaches id → ∀ child ∈ registry.graph.depthPreserving id,
      registry.Reaches child := by
    intro id hid child hchild
    exact .child hid (Graph.depthPreserving_subset _ _ hchild)
  have hreported : ∀ cycle ∈ registry.graph.cyclesFrom [] registry.reachable [],
      ∀ initial parent child, cycle = initial ++ [parent, child] →
        registry.Closes parent child := by
    rintro cycle hcycle initial parent child rfl
    exact ⟨initial, hcycle⟩
  obtain ⟨order, hordered, hnodup, hinside, _, hreachable⟩ := Graph.exists_ordered hsearching
    hclosed (fun root hroot => mem_reachable_iff.mp hroot) hreported
  exact ⟨order, hordered, hnodup,
    fun id => ⟨hinside id, fun hid => hreachable (mem_reachable_iff.mpr hid)⟩⟩

end Registry

end StochasticGrammar
