import StochasticGrammar.Proofs.BuildRun

namespace StochasticGrammar

variable {α : Type}

/-- What a check knows is what is registered. -/
def InSync (base : Registry α) (plan : Plan) (registry : Registry α) : Prop :=
  ∀ name, plan.knows base name = registry.contains name

/-- The texts that a check asked about between two plans, each accepted. -/
structure Asks (policy : LiteralPolicy α) (before after : Plan) (texts : List String) : Prop where
  asked_eq : after.asked = before.asked ++ texts
  accepted : ∀ text ∈ texts, ∃ asked value, policy.answer asked text = some value

/-- A run that asks the policy about given texts. It asks about all of them and leaves the names of
a plan registered, or it fails at the first text that is declined. -/
inductive Tracks (policy : LiteralPolicy α) (base : Registry α) {β : Type} (space : Workspace α)
    (texts : List String) (plan : Plan) : EStateM.Result CompileError (Workspace α) β → Prop
  | done {value : β} {after : Workspace α} :
      after.asked = space.asked ++ texts → InSync base plan after.registry →
      Tracks policy base space texts plan (.ok value after)
  | declined (asked : List String) {text name : String} {after : Workspace α} :
      asked ++ [text] <+: texts → after.asked = space.asked ++ (asked ++ [text]) →
      policy.answer (space.asked ++ asked) text = none →
      Tracks policy base space texts plan (.error (.rule (.unresolved text name)) after)

theorem Asks.add {policy : LiteralPolicy α} {before after : Plan} {texts : List String}
    (h : Asks policy before after texts) (name : String) :
    Asks policy before (after.add name) texts :=
  ⟨h.asked_eq, h.accepted⟩

theorem Asks.append {policy : LiteralPolicy α} {before middle after : Plan}
    {first second : List String} (h : Asks policy before middle first)
    (h' : Asks policy middle after second) : Asks policy before after (first ++ second) := by
  refine ⟨by rw [h'.asked_eq, h.asked_eq, List.append_assoc], ?_⟩
  intro text hmem
  rcases List.mem_append.mp hmem with hfirst | hsecond
  · exact h.accepted text hfirst
  · exact h'.accepted text hsecond

theorem Tracks.bind {policy : LiteralPolicy α} {base : Registry α} {β γ : Type}
    {space : Workspace α} {texts later : List String} {plan last : Plan}
    {first : Building α β} {next : β → Building α γ}
    (h : Tracks policy base space texts plan (first.run space))
    (hnext : ∀ value middle, InSync base plan middle.registry →
      Tracks policy base middle later last ((next value).run middle)) :
    Tracks policy base space (texts ++ later) last ((first >>= next).run space) := by
  cases hfirst : first.run space with
  | error reason after =>
    rw [run_bind_of_error hfirst]
    rw [hfirst] at h
    cases h with
    | declined asked hinitial hasked hanswer =>
      exact .declined asked (hinitial.trans (List.prefix_append texts later)) hasked hanswer
  | ok value middle =>
    rw [run_bind_of_ok hfirst]
    rw [hfirst] at h
    cases h with
    | done hasked hsync =>
      have hlast := hnext value middle hsync
      cases hresult : (next value).run middle with
      | ok result after =>
        rw [hresult] at hlast
        cases hlast with
        | done hafter hlater => exact .done (by rw [hafter, hasked, List.append_assoc]) hlater
      | error reason after =>
        rw [hresult] at hlast
        cases hlast with
        | declined asked hinitial hafter hanswer =>
          refine .declined (texts ++ asked) ?_ ?_ ?_
          · rw [List.append_assoc]
            exact (List.prefix_append_right_inj texts).mpr hinitial
          · simp only [hafter, hasked, List.append_assoc]
          · rw [← List.append_assoc, ← hasked]
            exact hanswer

theorem Tracks.map {policy : LiteralPolicy α} {base : Registry α} {β γ : Type}
    {space : Workspace α} {texts : List String} {plan : Plan} {first : Building α β}
    (h : Tracks policy base space texts plan (first.run space)) (f : β → γ) :
    Tracks policy base space texts plan ((first >>= fun value => pure (f value)).run space) := by
  rw [← List.append_nil texts]
  exact h.bind fun value middle hmiddle => .done (List.append_nil _).symm hmiddle

theorem inSync_nil (registry : Registry α) (asked : List String) :
    InSync registry ⟨[], asked⟩ registry := by
  intro name
  simp [Plan.knows]

namespace InSync

variable {base registry : Registry α} {plan : Plan}

theorem install (h : InSync base plan registry) (name : String) (id : NodeId) :
    InSync base (plan.add name) (registry.install name id) := by
  intro other
  have hother := h other
  unfold Registry.contains at hother ⊢
  rw [Registry.find?_install]
  by_cases hname : other = name
  · simp [Plan.knows, Plan.add, hname]
  · simpa [Plan.knows, Plan.add, hname] using hother

theorem define (h : InSync base plan registry) (name : String) (node : Node α) :
    InSync base (plan.add name) (registry.define name node).2 := by
  have hadded : InSync base plan (registry.add node).2 := h
  exact hadded.install name _

theorem find?_eq_none (h : InSync base plan registry) {name : String}
    (hname : plan.knows base name = false) : registry.find? name = none := by
  rw [h name] at hname
  simpa [Registry.contains] using hname

theorem exists_find? (h : InSync base plan registry) {name : String}
    (hname : plan.knows base name = true) : ∃ id, registry.find? name = some id := by
  rw [h name] at hname
  exact Option.isSome_iff_exists.mp hname

end InSync

theorem literalNode_tracks (policy : LiteralPolicy α) {base : Registry α} (name : String)
    {reference : String} {plan : Plan} {space : Workspace α}
    (hsync : InSync base plan space.registry) (hknows : plan.knows base reference = false) :
    Tracks policy base space [reference] ((plan.ask reference).add reference)
      ((literalNode policy name reference).run space) := by
  rw [literalNode_run_of_none policy name (hsync.find?_eq_none hknows)]
  cases hanswer : policy.answer space.asked reference with
  | none => exact .declined [] List.prefix_rfl rfl (by simpa using hanswer)
  | some value =>
    have hplan : InSync base (plan.ask reference) space.registry := hsync
    exact .done rfl (hplan.define reference (.leaf value))

theorem bindName_tracks {policy : LiteralPolicy α} {base : Registry α} {plan : Plan}
    {space : Workspace α} (hsync : InSync base plan space.registry) (name : String) (id : NodeId) :
    Tracks policy base space [] (plan.add name) ((bindName name id).run space) :=
  .done (List.append_nil _).symm (hsync.install name id)

end StochasticGrammar
