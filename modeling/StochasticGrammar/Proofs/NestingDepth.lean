import StochasticGrammar.Proofs.CompileAcceptance
import StochasticGrammar.Proofs.OperatorPriority

namespace StochasticGrammar

/-- How many calls a rule needs inside its own at most. -/
def Rule.nesting (text : String) (rule : Rule) : Nat := arrows text + min rule.kind.priority 3

theorem Rule.nesting_le (text : String) (rule : Rule) : rule.nesting text ≤ arrows text + 3 :=
  Nat.add_le_add_left (Nat.min_le_right _ _) _

theorem Rule.nesting_operand_lt {text reference : String} {shape : Composite String}
    {operand : Rule} (hread : Rule.read text = .ok (.composite shape)) {place : Nat}
    (hplace : shape.operands[place]? = some reference) (hoperand : Rule.read reference = .ok operand) :
    operand.nesting reference < Rule.nesting text (.composite shape) := by
  have hreads := reads_of_readChars hread
  have hoperandReads := reads_of_readChars hoperand
  unfold nesting
  change _ < arrows text + min shape.kind.priority 3
  rcases hreads.priority_lt hplace hoperandReads with hless | ⟨hshape, rfl, hkind⟩
  · have hnot : operand.kind ≠ .fallback := fun hkind =>
      absurd (hkind ▸ hless) (Nat.not_lt.mpr shape.kind.priority_le)
    rw [arrows_eq_zero hoperandReads hnot]
    by_cases hshape : shape.kind = .fallback
    · obtain ⟨alternate, _, harrows, _⟩ := exists_alternate hreads hshape
      have hoperator : RuleKind.fallback.priority = 4 := rfl
      rw [hshape]
      omega
    · have hbelow : shape.kind.priority < 4 := RuleKind.priority_lt_of_ne hshape
      omega
  · obtain ⟨alternate, halternate, harrows, _⟩ := exists_alternate hreads hshape
    obtain rfl := Option.some.inj (hplace.symm.trans halternate)
    rw [hkind, hshape]
    omega

theorem Rule.nesting_le_length {text : String} {rule : Rule} (hread : Rule.read text = .ok rule) :
    rule.nesting text ≤ text.length := by
  have hreads := reads_of_readChars hread
  have hoperator := hreads.operator_isInfix.length_le
  rw [String.length_toList] at hoperator
  unfold nesting
  cases hkind : rule.kind with
  | fallback =>
    cases rule with
    | bare _ => cases hkind
    | composite shape =>
      obtain ⟨alternate, _, harrows, hshorter⟩ := exists_alternate hreads hkind
      have hle : arrows alternate ≤ alternate.toList.length := occurrencesFrom_le_length 0 _
      rw [String.length_toList] at hle
      have hmin := Nat.min_le_right RuleKind.fallback.priority 3
      omega
  | _ =>
    rw [hkind] at hoperator
    rw [arrows_eq_zero hreads (by rw [hkind]; nofun), Nat.zero_add]
    exact Nat.le_trans (by decide) hoperator

section Settled

variable {σ β γ : Type}

/-- Two computations that do the same from every state, and do not run out of room for nesting. -/
def Settled (first second : EStateM CompileError σ β) : Prop :=
  ∀ state, first.run state = second.run state ∧ ∀ after, first.run state ≠ .error .tooDeep after

namespace Settled

variable {first second : EStateM CompileError σ β}

theorem eq (h : Settled first second) : first = second := funext fun state => (h state).1

theorem of_never (h : ∀ state after, first.run state ≠ .error .tooDeep after) :
    Settled first first :=
  fun state => ⟨rfl, h state⟩

theorem pure (value : β) : Settled (pure value : EStateM CompileError σ β) (Pure.pure value) :=
  of_never fun _ _ => nofun

theorem throw {reason : CompileError} (h : reason ≠ .tooDeep) :
    Settled (throw reason : EStateM CompileError σ β) (MonadExcept.throw reason) :=
  of_never fun _ _ herror => h (EStateM.Result.error.inj herror).1

theorem bind {next last : β → EStateM CompileError σ γ} (h : Settled first second)
    (hnext : ∀ value, Settled (next value) (last value)) :
    Settled (first >>= next) (second >>= last) := by
  intro state
  obtain ⟨hsame, hnever⟩ := h state
  cases hrun : first.run state with
  | ok value between =>
    rw [run_bind_of_ok hrun, run_bind_of_ok (hsame.symm.trans hrun)]
    exact hnext value between
  | error reason between =>
    rw [run_bind_of_error hrun, run_bind_of_error (hsame.symm.trans hrun)]
    refine ⟨rfl, fun after herror => hnever after ?_⟩
    cases herror
    exact hrun

end Settled

theorem readRule_bind_settled {text : String} {next last : Rule → EStateM CompileError σ β}
    (h : ∀ rule, Rule.read text = .ok rule → Settled (next rule) (last rule)) :
    Settled (readRule text >>= next) (readRule text >>= last) := by
  intro state
  cases hread : Rule.read text with
  | ok rule =>
    rw [run_bind_of_ok (readRule_run_of_ok hread state),
      run_bind_of_ok (readRule_run_of_ok hread state)]
    exact h rule hread state
  | error reason =>
    rw [run_bind_of_error (readRule_run_of_error hread state),
      run_bind_of_error (readRule_run_of_error hread state)]
    exact ⟨rfl, fun _ => nofun⟩

theorem mapM_settled {first second : β → EStateM CompileError σ γ} {operands : List β}
    (h : ∀ operand ∈ operands, Settled (first operand) (second operand)) :
    Settled (operands.mapM first) (operands.mapM second) := by
  induction operands with
  | nil => exact .pure []
  | cons operand rest ih =>
    have hrest := ih fun later hlater => h later (List.mem_cons_of_mem operand hlater)
    rw [List.mapM_cons, List.mapM_cons]
    exact (h operand List.mem_cons_self).bind fun _ => hrest.bind fun _ => .pure _

end Settled

variable {α : Type}

theorem checkOperands_settled (registry : Registry α) (name : String)
    {check other : String → Rule → Checking Unit} {references : List String}
    (h : ∀ reference ∈ references, ∀ rule, Rule.read reference = .ok rule →
      Settled (check reference rule) (other reference rule)) :
    Settled (checkOperands registry name check references)
      (checkOperands registry name other references) := by
  induction references with
  | nil => exact .pure ()
  | cons reference rest ih =>
    have hrest := ih fun later hlater => h later (List.mem_cons_of_mem reference hlater)
    intro plan
    cases hknows : plan.knows registry reference with
    | true =>
      rw [checkOperands_run_of_knows hknows, checkOperands_run_of_knows hknows]
      exact hrest plan
    | false =>
      cases hempty : reference.isEmpty with
      | true =>
        rw [checkOperands_run_of_empty hknows hempty, checkOperands_run_of_empty hknows hempty]
        exact ⟨rfl, fun _ => nofun⟩
      | false =>
        rw [checkOperands_run_of_new hknows hempty, checkOperands_run_of_new hknows hempty]
        have hadd : Settled (modify (Plan.add reference) : Checking Unit)
            (modify (Plan.add reference)) := .of_never fun _ _ => nofun
        have hnew := readRule_bind_settled fun rule hread =>
          (h reference List.mem_cons_self rule hread).bind fun _ => hadd.bind fun _ => hrest
        exact hnew plan

theorem checkLiteral_ne_tooDeep {policy : LiteralPolicy α} {name reference : String}
    {plan after : Plan} :
    (checkLiteral policy name reference).run plan ≠ .error .tooDeep after := by
  intro herror
  simp only [checkLiteral, EStateM.run] at herror
  split at herror
  next => cases herror
  next => split at herror <;> cases herror

/-- A check with enough room is the same with more. -/
theorem check_settled (policy : LiteralPolicy α) (registry : Registry α) {limit more : Nat}
    {name text : String} {rule : Rule} (hread : Rule.read text = .ok rule)
    (hlimit : rule.nesting text < limit) (hmore : rule.nesting text < more) :
    Settled (check policy registry limit name rule) (check policy registry more name rule) := by
  induction limit generalizing more name text rule with
  | zero => exact absurd hlimit (Nat.not_lt_zero _)
  | succ limit ih =>
    obtain ⟨more, rfl⟩ := Nat.exists_eq_succ_of_ne_zero (Nat.ne_zero_of_lt hmore)
    cases rule with
    | bare reference =>
      refine .of_never fun plan after herror => ?_
      unfold check at herror
      rw [run_get_bind] at herror
      split at herror
      next => cases herror
      next => exact checkLiteral_ne_tooDeep herror
    | composite shape =>
      unfold check
      refine checkOperands_settled registry name fun reference hmem operand hoperand => ?_
      obtain ⟨place, hplace⟩ := List.mem_iff_getElem?.mp hmem
      have hless := Rule.nesting_operand_lt hread hplace hoperand
      exact ih hoperand (by omega) (by omega)

theorem operandNode_settled {build other : String → Rule → Building α NodeId} {reference : String}
    (h : ∀ rule, Rule.read reference = .ok rule →
      Settled (build reference rule) (other reference rule)) :
    Settled (operandNode build reference) (operandNode other reference) := by
  intro space
  cases hfind : space.registry.find? reference with
  | some id =>
    rw [operandNode_run_of_some hfind, operandNode_run_of_some hfind]
    exact ⟨rfl, fun _ => nofun⟩
  | none =>
    rw [operandNode_run_of_none hfind, operandNode_run_of_none hfind]
    exact readRule_bind_settled h space

theorem literalNode_settled (policy : LiteralPolicy α) (name reference : String) :
    Settled (literalNode policy name reference) (literalNode policy name reference) := by
  refine .of_never fun space after herror => ?_
  cases hfind : space.registry.find? reference with
  | some id =>
    rw [literalNode_run_of_some hfind] at herror
    cases herror
  | none =>
    rw [literalNode_run_of_none policy name hfind] at herror
    split at herror <;> cases herror

theorem defineShape_settled (name : String) (shape : Composite NodeId) :
    Settled (defineShape name shape : Building α NodeId) (defineShape name shape) := by
  unfold defineShape
  cases shape.checked with
  | ok shape => exact .of_never fun _ _ => nofun
  | error reason => exact .throw nofun

theorem build_settled (policy : LiteralPolicy α) {limit more : Nat}
    {name text : String} {rule : Rule} (hread : Rule.read text = .ok rule)
    (hlimit : rule.nesting text < limit) (hmore : rule.nesting text < more) :
    Settled (build policy limit name rule) (build policy more name rule) := by
  induction limit generalizing more name text rule with
  | zero => exact absurd hlimit (Nat.not_lt_zero _)
  | succ limit ih =>
    obtain ⟨more, rfl⟩ := Nat.exists_eq_succ_of_ne_zero (Nat.ne_zero_of_lt hmore)
    cases rule with
    | bare reference =>
      unfold build
      refine (literalNode_settled policy name reference).bind fun id => .of_never ?_
      intro space after herror
      cases herror
    | composite shape =>
      unfold build
      refine Settled.bind ?_ fun found => ?_
      · rw [Composite.mapM_eq_refill, Composite.mapM_eq_refill]
        refine (mapM_settled fun reference hmem => ?_).bind fun _ => .pure _
        obtain ⟨place, hplace⟩ := List.mem_iff_getElem?.mp hmem
        refine operandNode_settled fun operand hoperand => ?_
        have hless := Rule.nesting_operand_lt hread hplace hoperand
        exact ih hoperand (by omega) (by omega)
      · exact defineShape_settled name found

theorem compileRule_settled (policy : LiteralPolicy α) {limit more : Nat} (name : String)
    {text : String} {rule : Rule} (hread : Rule.read text = .ok rule)
    (hlimit : rule.nesting text < limit) (hmore : rule.nesting text < more) :
    Settled (compileRule policy name limit rule) (compileRule policy name more rule) := by
  have hbuild : Settled (build policy limit name rule) (build policy more name rule) :=
    build_settled policy hread hlimit hmore
  intro space
  have hcheck : Settled (check policy space.registry limit name rule)
      (check policy space.registry more name rule) :=
    check_settled policy space.registry hread hlimit hmore
  refine ⟨by simp only [compileRule, EStateM.run, hcheck.eq, hbuild.eq], fun after herror => ?_⟩
  cases hplan : (check policy space.registry limit name rule).run ⟨[], space.asked⟩ with
  | error reason plan =>
    rw [compileRule_run_of_check_error hplan] at herror
    cases herror
    exact (hcheck _).2 plan hplan
  | ok _ plan =>
    cases hbuilt : (build policy limit name rule).run ⟨space.registry, plan.asked⟩ with
    | error reason built =>
      rw [compileRule_run_of_build_error hplan hbuilt] at herror
      cases herror
      exact (hbuild _).2 after hbuilt
    | ok id built =>
      obtain ⟨compilation, hrun⟩ := exists_compileRule_run_of_ok hplan hbuilt
      rw [hrun] at herror
      cases herror

/-- An operand is a part of the text that is shorter by three characters at least, and denotes a rule
that binds more strongly, unless it is the alternate of a fallback and a fallback with one arrow
less. So checks, builds and compilations do not nest deeper than the arrows and four. -/
theorem nesting_within_arrows (policy : LiteralPolicy α) (text : String) :
    (∀ shape, Rule.read text = .ok (.composite shape) →
      (∀ reference ∈ shape.operands,
        reference.toList <:+: text.toList ∧ reference.length + 3 ≤ text.length) ∧
      ∀ (place : Nat) (reference : String) (operand : Rule),
        shape.operands[place]? = some reference → Rule.read reference = .ok operand →
          operand.kind.priority < shape.kind.priority ∨
            (shape.kind = .fallback ∧ place = 1 ∧ operand.kind = .fallback ∧
              arrows reference + 1 = arrows text)) ∧
    (∀ rule, Rule.read text = .ok rule →
      ∀ (name : String) (registry : Registry α) (limit : Nat), arrows text + 4 ≤ limit →
        Settled (check policy registry (arrows text + 4) name rule)
          (check policy registry limit name rule) ∧
        Settled (build policy (arrows text + 4) name rule) (build policy limit name rule)) ∧
    ∀ name, Settled (readRule text >>= compileRule policy name (arrows text + 4))
      (compileText policy name text) := by
  refine ⟨fun shape hread => ⟨fun reference hmem => ?_, ?_⟩, ?_, ?_⟩
  · obtain ⟨place, hplace⟩ := List.mem_iff_getElem?.mp hmem
    have hwithin := (Rule.reads_of_readChars hread).isInfix_operand hplace
    exact ⟨hwithin.1, (Rule.read_eq_composite hread).2 reference hmem⟩
  · intro place reference operand hplace hoperand
    have hreads := Rule.reads_of_readChars hread
    rcases hreads.priority_lt hplace (Rule.reads_of_readChars hoperand) with
      hless | ⟨hshape, rfl, hkind⟩
    · exact .inl hless
    · obtain ⟨alternate, halternate, harrows, _⟩ := Rule.exists_alternate hreads hshape
      obtain rfl := Option.some.inj (hplace.symm.trans halternate)
      exact .inr ⟨hshape, rfl, hkind, harrows.symm⟩
  · intro rule hread name registry limit hlimit
    have hroom := rule.nesting_le text
    exact ⟨check_settled policy registry hread (by omega) (by omega),
      build_settled policy hread (by omega) (by omega)⟩
  · intro name
    refine readRule_bind_settled fun rule hread => ?_
    have hroom := rule.nesting_le text
    have hlength := Rule.nesting_le_length hread
    exact compileRule_settled policy name hread (by omega) (by omega)

/-- All five operators in a text with one arrow: five calls inside each other are enough. -/
theorem nesting_within_arrows_of_all_operators :
    let text := "x -> a & 1 b # 2 | 1 c"
    let alternate := "a & 1 b # 2 | 1 c"
    let shape := Composite.fallback "x" alternate
    let sequence := Rule.composite (.sequence ["a", "1 b # 2 | 1 c"])
    let policy : LiteralPolicy String := .every id
    let registry : Registry String := .empty
    Rule.read text = .ok (.composite shape) ∧ arrows text = 1 ∧
      (alternate ∈ shape.operands ∧ alternate.toList <:+: text.toList ∧
        alternate.length + 3 ≤ text.length) ∧
      (shape.operands[1]? = some alternate ∧ Rule.read alternate = .ok sequence ∧
        (sequence.kind.priority < shape.kind.priority ∨
          (shape.kind = .fallback ∧ 1 = 1 ∧ sequence.kind = .fallback ∧
            arrows alternate + 1 = arrows text))) ∧
      Settled (check policy registry 5 "s" (.composite shape))
        (check policy registry 100 "s" (.composite shape)) ∧
      Settled (readRule text >>= compileRule policy "s" 5) (compileText policy "s" text) := by
  intro text alternate shape sequence policy registry
  obtain ⟨hoperands, hsettled, hcompile⟩ := nesting_within_arrows policy text
  have hread : Rule.read text = .ok (.composite shape) := by decide +kernel
  have harrows : arrows text = 1 := by decide +kernel
  have hmem : alternate ∈ shape.operands := List.mem_cons_of_mem _ List.mem_cons_self
  have halternate : Rule.read alternate = .ok sequence := by decide +kernel
  rw [harrows] at hsettled hcompile
  exact ⟨hread, harrows, ⟨hmem, (hoperands shape hread).1 alternate hmem⟩,
    ⟨rfl, halternate, (hoperands shape hread).2 1 alternate sequence rfl halternate⟩,
    (hsettled _ hread "s" registry 100 (by decide)).1, hcompile "s"⟩

end StochasticGrammar
