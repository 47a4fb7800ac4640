import StochasticGrammar.Proofs.BuildGrowth

namespace StochasticGrammar

variable {α : Type}

theorem readRule_run_of_ok {σ : Type} {text : String} {rule : Rule} (h : Rule.read text = .ok rule)
    (state : σ) : (readRule text).run state = .ok rule state := by
  unfold readRule
  rw [h]
  rfl

theorem readRule_run_of_error {σ : Type} {text : String} {reason : RuleError}
    (h : Rule.read text = .error reason) (state : σ) :
    (readRule text).run state = .error (.rule reason) state := by
  unfold readRule
  rw [h]
  rfl

theorem operandNode_run_of_some {build : String → Rule → Building α NodeId} {reference : String}
    {space : Workspace α} {id : NodeId} (h : space.registry.find? reference = some id) :
    (operandNode build reference).run space = .ok id space := by
  unfold operandNode
  rw [run_get_bind, h]
  rfl

theorem operandNode_run_of_none {build : String → Rule → Building α NodeId} {reference : String}
    {space : Workspace α} (h : space.registry.find? reference = none) :
    (operandNode build reference).run space =
      (readRule reference >>= build reference).run space := by
  unfold operandNode
  rw [run_get_bind, h]

theorem literalNode_run_of_some {policy : LiteralPolicy α} {name reference : String}
    {space : Workspace α} {id : NodeId} (h : space.registry.find? reference = some id) :
    (literalNode policy name reference).run space = .ok id space := by
  unfold literalNode
  rw [run_get_bind, h]
  rfl

theorem literalNode_run_of_none (policy : LiteralPolicy α) (name : String) {reference : String}
    {space : Workspace α} (h : space.registry.find? reference = none) :
    (literalNode policy name reference).run space =
      match policy.answer space.asked reference with
      | none => .error (.rule (.unresolved reference name))
          ⟨space.registry, space.asked ++ [reference]⟩
      | some value => .ok (space.registry.define reference (.leaf value)).1
          ⟨(space.registry.define reference (.leaf value)).2, space.asked ++ [reference]⟩ := by
  have hask : (askPolicy policy reference).run space =
      .ok (policy.answer space.asked reference) ⟨space.registry, space.asked ++ [reference]⟩ := rfl
  unfold literalNode
  rw [run_get_bind, h]
  simp only
  rw [run_bind_of_ok hask]
  cases policy.answer space.asked reference with
  | none => rfl
  | some value => rfl

/-- The registry only grows, and where there is a result it meets a condition. -/
def Yields {β : Type} (policy : LiteralPolicy α) (bound : Nat) (space : Workspace α)
    (result : EStateM.Result CompileError (Workspace α) β) (post : β → Registry α → Prop) : Prop :=
  match result with
  | .ok value after => Grows policy bound space.registry after.registry ∧ post value after.registry
  | .error _ after => Grows policy bound space.registry after.registry

theorem Yields.bind {β γ : Type} {policy : LiteralPolicy α} {bound : Nat} {space : Workspace α}
    {first : Building α β} {next : β → Building α γ} {between : β → Registry α → Prop}
    {post : γ → Registry α → Prop} (h : Yields policy bound space (first.run space) between)
    (hnext : ∀ value middle, Grows policy bound space.registry middle.registry →
      between value middle.registry → Yields policy bound middle ((next value).run middle) post) :
    Yields policy bound space ((first >>= next).run space) post := by
  cases hfirst : first.run space with
  | error reason middle =>
    rw [run_bind_of_error hfirst]
    simpa [Yields, hfirst] using h
  | ok value middle =>
    rw [run_bind_of_ok hfirst]
    obtain ⟨hgrows, hvalue⟩ : Grows policy bound space.registry middle.registry ∧
        between value middle.registry := by simpa [Yields, hfirst] using h
    have hlast := hnext value middle hgrows hvalue
    cases hresult : (next value).run middle with
    | error reason after =>
      simp only [Yields, hresult] at hlast ⊢
      exact hgrows.trans hlast
    | ok result after =>
      simp only [Yields, hresult] at hlast ⊢
      exact ⟨hgrows.trans hlast.1, hlast.2⟩

theorem Yields.mono {β : Type} {policy : LiteralPolicy α} {bound wider : Nat}
    {space : Workspace α} {result : EStateM.Result CompileError (Workspace α) β}
    {post : β → Registry α → Prop} (hle : bound ≤ wider)
    (h : Yields policy bound space result post) : Yields policy wider space result post := by
  cases result with
  | error reason after => exact Grows.mono hle h
  | ok value after => exact ⟨Grows.mono hle h.1, h.2⟩

/-- A build from the text of a name that is not registered leaves the name with its node. -/
def YieldsNodes (policy : LiteralPolicy α) (build : String → Rule → Building α NodeId) : Prop :=
  ∀ name rule (space : Workspace α), Rule.read name = .ok rule →
    space.registry.find? name = none →
    Yields policy (name.length + 1) space ((build name rule).run space)
      fun id registry => registry.find? name = some id

theorem operandNode_yields {policy : LiteralPolicy α} {bound : Nat}
    {build : String → Rule → Building α NodeId} (hbuild : YieldsNodes policy build)
    {reference : String} (hshort : reference.length < bound) (space : Workspace α) :
    Yields policy bound space ((operandNode build reference).run space)
      fun id registry => registry.find? reference = some id := by
  cases hfind : space.registry.find? reference with
  | some id =>
    rw [operandNode_run_of_some hfind]
    exact ⟨.refl, hfind⟩
  | none =>
    rw [operandNode_run_of_none hfind]
    cases hread : Rule.read reference with
    | error reason =>
      rw [run_bind_of_error (readRule_run_of_error hread space)]
      exact .refl
    | ok rule =>
      rw [run_bind_of_ok (readRule_run_of_ok hread space)]
      exact (hbuild reference rule space hread hfind).mono hshort

theorem operands_yields {policy : LiteralPolicy α} {bound : Nat}
    {build : String → Rule → Building α NodeId} (hbuild : YieldsNodes policy build)
    {references : List String} (hshort : ∀ reference ∈ references, reference.length < bound)
    (space : Workspace α) :
    Yields policy bound space ((references.mapM (operandNode build)).run space)
      fun found registry => found.map some = references.map registry.find? := by
  induction references generalizing space with
  | nil => exact ⟨.refl, rfl⟩
  | cons reference rest ih =>
    rw [List.mapM_cons]
    refine (operandNode_yields hbuild (hshort reference (by simp)) space).bind ?_
    intro id middle _ hid
    refine (ih (fun other hother => hshort other (by simp [hother])) middle).bind ?_
    intro found last hgrows hfound
    refine ⟨.refl, ?_⟩
    simp only [List.map_cons, hfound, hgrows.find?_eq_some hid]

theorem mapM_yields {policy : LiteralPolicy α} {bound : Nat}
    {build : String → Rule → Building α NodeId} (hbuild : YieldsNodes policy build)
    {shape : Composite String} (hshort : ∀ reference ∈ shape.operands, reference.length < bound)
    (space : Workspace α) :
    Yields policy bound space ((shape.mapM (operandNode build)).run space)
      fun found registry => registry.Resolves shape found := by
  have hoperands := operands_yields hbuild hshort space
  cases hresult : (shape.mapM (operandNode build)).run space with
  | error reason after =>
    rw [Composite.mapM_eq_error hresult] at hoperands
    exact hoperands
  | ok found after =>
    obtain ⟨hrun, hform⟩ := Composite.mapM_eq_ok hresult
    rw [hrun] at hoperands
    exact ⟨hoperands.1, hform, hoperands.2⟩

theorem defineShape_run {name : String} {shape : Composite NodeId} (hsound : shape.IsSound)
    (space : Workspace α) :
    (defineShape name shape).run space = .ok (space.registry.define name (.composite shape)).1
      ⟨(space.registry.define name (.composite shape)).2, space.asked⟩ := by
  unfold defineShape
  rw [hsound.checked_eq]
  rfl

def IsBuilt (policy : LiteralPolicy α) (name text : String) (space : Workspace α) :
    EStateM.Result CompileError (Workspace α) NodeId → Prop
  | .ok id after => Built policy space.registry name text id after.registry
  | .error _ after => Grows policy (text.length + 1) space.registry after.registry

theorem isBuilt_bare {policy : LiteralPolicy α} {text : String} (limit : Nat) (name : String)
    (hread : Rule.read text = .ok (.bare text)) (space : Workspace α) :
    IsBuilt policy name text space ((build policy (limit + 1) name (.bare text)).run space) := by
  unfold build
  cases hfind : space.registry.find? text with
  | some id =>
    rw [run_bind_of_ok (literalNode_run_of_some hfind)]
    exact .bare hread .refl hfind
  | none =>
    have hrun := literalNode_run_of_none policy name hfind
    cases hanswer : policy.answer space.asked text with
    | none =>
      rw [hanswer] at hrun
      rw [run_bind_of_error hrun]
      exact .refl
    | some value =>
      rw [hanswer] at hrun
      rw [run_bind_of_ok hrun]
      have hliteral := Registers.literal hfind (Nat.lt_succ_self _) hread hanswer
      refine .bare hread (.single hliteral) ?_
      rw [Registry.find?_define, if_pos rfl]
      rfl

theorem isBuilt_composite {policy : LiteralPolicy α} {limit : Nat}
    (hbuild : YieldsNodes policy (build policy limit)) (name : String) {text : String}
    {shape : Composite String} (hread : Rule.read text = .ok (.composite shape))
    (space : Workspace α) :
    IsBuilt policy name text space
      ((build policy (limit + 1) name (.composite shape)).run space) := by
  obtain ⟨hsound, hshorter⟩ := Rule.read_eq_composite hread
  have hshort : ∀ reference ∈ shape.operands, reference.length < text.length := by
    intro reference hmem
    have hle := hshorter reference hmem
    omega
  have hyields := mapM_yields hbuild hshort space
  unfold build
  cases hresult : (shape.mapM (operandNode (build policy limit))).run space with
  | error reason after =>
    rw [hresult] at hyields
    rw [run_bind_of_error hresult]
    exact Grows.mono (Nat.le_succ _) hyields
  | ok found middle =>
    rw [hresult] at hyields
    obtain ⟨hgrows, hfound⟩ := hyields
    rw [run_bind_of_ok hresult, defineShape_run (hfound.form.isSound hsound)]
    exact .composite hread hgrows hfound

/-- A build of a text, however deep it may nest, only does what a build does. -/
theorem build_isBuilt (policy : LiteralPolicy α) (limit : Nat) (name : String) {text : String}
    {rule : Rule} (hread : Rule.read text = .ok rule) (space : Workspace α) :
    IsBuilt policy name text space ((build policy limit name rule).run space) := by
  induction limit generalizing name text rule space with
  | zero => exact Relation.ReflTransGen.refl
  | succ limit ih =>
    cases rule with
    | bare reference =>
      obtain rfl := Rule.read_eq_bare hread
      exact isBuilt_bare limit name hread space
    | composite shape =>
      refine isBuilt_composite ?_ name hread space
      intro reference rule space hreference hnew
      have hbuilt := ih reference hreference space
      cases hresult : (build policy limit reference rule).run space with
      | error reason after =>
        rw [hresult] at hbuilt
        exact hbuilt
      | ok id after =>
        rw [hresult] at hbuilt
        exact Built.grows hbuilt hnew

end StochasticGrammar
