import StochasticGrammar.Proofs.CompileAtomic

namespace StochasticGrammar

variable {α : Type}

/-- A reference can be resolved if it is known, or if its text is a rule that is accepted as it
stands or has only references that can be resolved. -/
inductive Resolvable (known accepted : String → Prop) : String → Prop
  | known {reference : String} : known reference → Resolvable known accepted reference
  | literal {reference : String} : reference ≠ "" →
      Rule.read reference = .ok (.bare reference) → accepted reference →
      Resolvable known accepted reference
  | operands {reference : String} {rule : Rule} : reference ≠ "" →
      Rule.read reference = .ok rule →
      (∀ operand ∈ rule.references, Resolvable known accepted operand) →
      Resolvable known accepted reference

namespace Resolvable

variable {known accepted known' accepted' : String → Prop} {reference : String}

theorem mono (h : Resolvable known accepted reference)
    (hknown : ∀ name, known name → known' name)
    (haccepted : ∀ text, accepted text → accepted' text) :
    Resolvable known' accepted' reference := by
  induction h with
  | known hreference => exact .known (hknown _ hreference)
  | literal hne hread htext => exact .literal hne hread (haccepted _ htext)
  | operands hne hread _ ih => exact .operands hne hread ih

/-- What is resolved without being known is a rule with resolvable references. -/
theorem exists_rule (h : Resolvable known accepted reference) (hnew : ¬known reference) :
    reference ≠ "" ∧ ∃ rule, Rule.read reference = .ok rule ∧
      ∀ operand ∈ rule.references, Resolvable known accepted operand := by
  have hself := h
  cases h with
  | known hreference => exact absurd hreference hnew
  | literal hne hread _ =>
    refine ⟨hne, _, hread, fun operand hmem => ?_⟩
    obtain rfl := List.mem_singleton.mp hmem
    exact hself
  | operands hne hread hoperands => exact ⟨hne, _, hread, hoperands⟩

theorem ne_empty (h : Resolvable known accepted reference) (hnew : ¬known reference) :
    reference ≠ "" :=
  (h.exists_rule hnew).1

theorem operand (h : Resolvable known accepted reference) (hnew : ¬known reference) {rule : Rule}
    (hread : Rule.read reference = .ok rule) {operand : String} (hmem : operand ∈ rule.references) :
    Resolvable known accepted operand := by
  obtain ⟨_, other, hother, hoperands⟩ := h.exists_rule hnew
  rw [hread] at hother
  cases hother
  exact hoperands operand hmem

/-- A bare reference refers to itself, so that only its acceptance can resolve it. -/
theorem accepted_of_bare (h : Resolvable known accepted reference) (hnew : ¬known reference)
    (hbare : Rule.read reference = .ok (.bare reference)) : accepted reference := by
  induction h with
  | known hreference => exact absurd hreference hnew
  | literal _ _ htext => exact htext
  | operands _ hread _ ih =>
    rw [hbare] at hread
    cases hread
    exact ih _ List.mem_cons_self hnew hbare

end Resolvable

namespace LiteralPolicy

/-- A text is accepted whatever was asked before. -/
def Accepts (policy : LiteralPolicy α) (text : String) : Prop :=
  ∀ asked, ∃ value, policy.answer asked text = some value

/-- A text is accepted after some questions at least. -/
def MayAccept (policy : LiteralPolicy α) (text : String) : Prop :=
  ∃ asked value, policy.answer asked text = some value

theorem DependsOnText.accepts_of_mayAccept {policy : LiteralPolicy α} (h : policy.DependsOnText)
    {text : String} (hmay : policy.MayAccept text) : policy.Accepts text := by
  obtain ⟨asked, value, hvalue⟩ := hmay
  intro later
  exact ⟨value, (h later asked text).trans hvalue⟩

end LiteralPolicy

def Registry.Has (registry : Registry α) (name : String) : Prop := registry.contains name = true

/-- The names that a plan knows can be resolved. -/
def Plan.IsJustified (policy : LiteralPolicy α) (base : Registry α) (plan : Plan) : Prop :=
  ∀ name, plan.knows base name = true → Resolvable base.Has policy.MayAccept name

/-- What a check says about references. Where it passes they can be resolved, and what it planned
as well; where it fails it names a fault of a rule, and one of them cannot be resolved for sure. -/
def Decides (policy : LiteralPolicy α) (base : Registry α) (references : List String) :
    EStateM.Result CompileError Plan Unit → Prop
  | .ok _ last => last.IsJustified policy base ∧
      ∀ reference ∈ references, Resolvable base.Has policy.MayAccept reference
  | .error reason _ => (∃ fault, reason = .rule fault) ∧
      ∃ reference ∈ references, ¬Resolvable base.Has policy.Accepts reference

section Check

variable {policy : LiteralPolicy α} {base : Registry α} {plan : Plan} {reference : String}

theorem Plan.isJustified_nil (policy : LiteralPolicy α) (base : Registry α) (asked : List String) :
    Plan.IsJustified policy base ⟨[], asked⟩ := by
  intro name hname
  have hregistered : base.contains name = true := by simpa [Plan.knows] using hname
  exact .known hregistered

theorem Plan.IsJustified.add (h : plan.IsJustified policy base)
    (hreference : Resolvable base.Has policy.MayAccept reference) :
    (plan.add reference).IsJustified policy base := by
  intro name hname
  by_cases hsame : name = reference
  · rw [hsame]
    exact hreference
  · have hbefore : plan.knows base name = true := by
      simpa [Plan.knows, Plan.add, hsame] using hname
    exact h name hbefore

theorem Plan.not_has_of_not_knows (h : plan.knows base reference = false) :
    ¬base.Has reference := by
  intro hregistered
  have hknows : plan.knows base reference = true := by
    unfold Plan.knows
    rw [show base.contains reference = true from hregistered, Bool.true_or]
  rw [h] at hknows
  cases hknows

namespace Decides

variable {rest : List String}

theorem refuse {references : List String} (hmem : reference ∈ references)
    (h : ¬Resolvable base.Has policy.Accepts reference) (fault : RuleError) (last : Plan) :
    Decides policy base references (.error (.rule fault) last) :=
  ⟨⟨fault, rfl⟩, reference, hmem, h⟩

theorem cons {result : EStateM.Result CompileError Plan Unit}
    (hreference : Resolvable base.Has policy.MayAccept reference)
    (h : Decides policy base rest result) : Decides policy base (reference :: rest) result := by
  cases result with
  | ok value last => exact ⟨h.1, List.forall_mem_cons.mpr ⟨hreference, h.2⟩⟩
  | error reason last =>
    obtain ⟨hfault, other, hmem, hother⟩ := h
    exact ⟨hfault, other, List.mem_cons_of_mem reference hmem, hother⟩

end Decides

/-- A bare reference that is not known yet is decided by the policy. -/
theorem checkLiteral_decides (name : String) (h : plan.IsJustified policy base)
    (hnew : plan.knows base reference = false)
    (hread : Rule.read reference = .ok (.bare reference)) :
    Decides policy base [reference] ((checkLiteral policy name reference).run plan) := by
  have hunregistered := Plan.not_has_of_not_knows hnew
  have hmem : reference ∈ [reference] := List.mem_cons_self
  simp only [checkLiteral, EStateM.run]
  split
  next hempty =>
    apply Decides.refuse hmem
    intro hresolvable
    exact hresolvable.ne_empty hunregistered (String.isEmpty_iff.mp hempty)
  next hne =>
    split
    next hdeclined =>
      apply Decides.refuse hmem
      intro hresolvable
      obtain ⟨value, hvalue⟩ := hresolvable.accepted_of_bare hunregistered hread plan.asked
      rw [hdeclined] at hvalue
      cases hvalue
    next value hvalue =>
      have hresolvable : Resolvable base.Has policy.MayAccept reference :=
        .literal (fun heq => hne (String.isEmpty_iff.mpr heq)) hread ⟨plan.asked, value, hvalue⟩
      have hasked : (plan.ask reference).IsJustified policy base := h
      exact ⟨hasked.add hresolvable, by simpa using hresolvable⟩

/-- A reference that is looked into is decided by its own rule, and the later ones after it. -/
theorem checkNew_decides {check : String → Rule → Checking Unit} {later : Checking Unit}
    {rest : List String} (hnew : plan.knows base reference = false)
    (hne : reference.isEmpty = false)
    (hcheck : ∀ rule, Rule.read reference = .ok rule →
      Decides policy base rule.references ((check reference rule).run plan))
    (hlater : ∀ between, between.IsJustified policy base →
      Decides policy base rest (later.run between)) :
    Decides policy base (reference :: rest)
      ((readRule reference >>= fun rule => check reference rule >>= fun _ =>
        modify (Plan.add reference) >>= fun _ => later).run plan) := by
  have hunregistered := Plan.not_has_of_not_knows hnew
  cases hread : Rule.read reference with
  | error fault =>
    rw [run_bind_of_error (readRule_run_of_error hread plan)]
    apply Decides.refuse List.mem_cons_self
    intro hresolvable
    obtain ⟨_, rule, hrule, _⟩ := hresolvable.exists_rule hunregistered
    rw [hread] at hrule
    cases hrule
  | ok rule =>
    rw [run_bind_of_ok (readRule_run_of_ok hread plan)]
    have hdecides := hcheck rule hread
    cases hresult : (check reference rule).run plan with
    | error reason between =>
      rw [hresult] at hdecides
      obtain ⟨⟨fault, rfl⟩, operand, hmem, hoperand⟩ := hdecides
      rw [run_bind_of_error hresult]
      apply Decides.refuse List.mem_cons_self
      intro hresolvable
      exact hoperand (hresolvable.operand hunregistered hread hmem)
    | ok _ between =>
      rw [hresult] at hdecides
      obtain ⟨hbetween, hoperands⟩ := hdecides
      have hfilled : reference ≠ "" := by
        rintro rfl
        cases hne
      have hresolvable := Resolvable.operands hfilled hread hoperands
      rw [run_bind_of_ok hresult]
      exact (hlater _ (hbetween.add hresolvable)).cons hresolvable

/-- A check that decides the rules of single references decides any number of them. The references
that it passes over are known, so that they can be resolved. -/
theorem checkOperands_decides {check : String → Rule → Checking Unit} {name : String}
    {references : List String}
    (hcheck : ∀ reference ∈ references, ∀ rule plan, Rule.read reference = .ok rule →
      plan.IsJustified policy base →
      Decides policy base rule.references ((check reference rule).run plan))
    (h : plan.IsJustified policy base) :
    Decides policy base references ((checkOperands base name check references).run plan) := by
  induction references generalizing plan with
  | nil => exact ⟨h, by simp⟩
  | cons reference rest ih =>
    have hrest : ∀ later : Plan, later.IsJustified policy base →
        Decides policy base rest ((checkOperands base name check rest).run later) := by
      intro later hlater
      exact ih (fun other hmem => hcheck other (List.mem_cons_of_mem reference hmem)) hlater
    cases hknows : plan.knows base reference with
    | true =>
      rw [checkOperands_run_of_knows hknows]
      exact (hrest plan h).cons (h reference hknows)
    | false =>
      cases hempty : reference.isEmpty with
      | true =>
        rw [checkOperands_run_of_empty hknows hempty]
        apply Decides.refuse List.mem_cons_self
        intro hresolvable
        exact hresolvable.ne_empty (Plan.not_has_of_not_knows hknows)
          (String.isEmpty_iff.mp hempty)
      | false =>
        rw [checkOperands_run_of_new hknows hempty]
        have hfirst := fun rule hread => hcheck reference List.mem_cons_self rule plan hread h
        exact checkNew_decides hknows hempty hfirst hrest

/-- A check with room for the length of a text decides the references of its rule. -/
theorem check_decides (policy : LiteralPolicy α) (base : Registry α) {limit : Nat} (name : String)
    {text : String} {rule : Rule} (hread : Rule.read text = .ok rule) (hroom : text.length < limit)
    (h : plan.IsJustified policy base) :
    Decides policy base rule.references ((check policy base limit name rule).run plan) := by
  induction limit generalizing name text rule plan with
  | zero => omega
  | succ limit ih =>
    cases rule with
    | bare reference =>
      obtain rfl := Rule.read_eq_bare hread
      unfold check
      rw [run_get_bind]
      cases hknows : plan.knows base reference with
      | true =>
        have hresolvable := h reference hknows
        exact ⟨h, by simpa [Rule.references] using hresolvable⟩
      | false => exact checkLiteral_decides name h hknows hread
    | composite shape =>
      unfold check
      apply checkOperands_decides _ h
      intro reference hmem operand later hoperand hlater
      have hshorter := (Rule.read_eq_composite hread).2 reference hmem
      have hroom' : reference.length < limit := by omega
      exact ih reference hoperand hroom' hlater

end Check

end StochasticGrammar
