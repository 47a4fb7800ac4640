import StochasticGrammar.Binary64.Basic
import StochasticGrammar.Proofs.CompileAcceptance
import StochasticGrammar.Proofs.ExpansionSuccess
import StochasticGrammar.Proofs.ReachableNodes
import StochasticGrammar.Proofs.SoundNodes

namespace StochasticGrammar

variable {α : Type}

/-- An expansion that finds no option to choose, or that nests too deeply. -/
def ExpansionFault.IsDocumented (fault : ExpansionFault) : Prop :=
  fault = .deadSelect ∨ fault = .tooDeep

/-- A rule that is not registered, or a documented fault of its expansion. -/
def GenerationError.IsDocumented : GenerationError → Prop
  | ruleNotFound _ => True
  | expansion _ fault => fault.IsDocumented

/-- Both ways of repeating have a whole number to start from, and the one that is taken from the
count again is a finite double. -/
structure Binary64.IsUsableCount (count : Binary64) : Prop where
  rounded : ∃ times, (count + .half).floor = .ok times
  whole : ∃ whole, count.floor = .ok whole ∧ (Binary64.ofInt whole).IsFinite

theorem Binary64.IsAmount.isUsableCount {count : Binary64} (h : count.IsAmount) :
    count.IsUsableCount := by
  obtain ⟨whole, hwhole⟩ := h.1.exists_floor
  exact ⟨h.add_half_isFinite.exists_floor, whole, hwhole, h.ofInt_floor_isFinite hwhole⟩

theorem exists_mapM_eq_ok {ε β γ : Type} {f : β → Except ε γ} {values : List β}
    (h : ∀ value ∈ values, ∃ result, f value = .ok result) :
    ∃ results, values.mapM f = .ok results := by
  induction values with
  | nil => exact ⟨[], rfl⟩
  | cons first rest ih =>
    obtain ⟨head, hhead⟩ := h first List.mem_cons_self
    obtain ⟨tail, htail⟩ := ih fun other hother => h other (List.mem_cons_of_mem first hother)
    refine ⟨head :: tail, ?_⟩
    rw [List.mapM_cons, hhead, htail]
    rfl

section Expansion

variable {σ : Type} [RandomSource σ]

theorem chooseOption_failsOnly {ρ : Type} (options : List (ρ × Binary64)) :
    FailsOnly ExpansionFault.IsDocumented (chooseOption options : Sampling σ ρ) := by
  have hdead : FailsOnly ExpansionFault.IsDocumented (throw .deadSelect : Sampling σ ρ) :=
    FailsOnly.throw (.inl rfl)
  unfold chooseOption
  simp only
  split
  next => exact hdead
  next =>
    refine drawOne_succeeds.failsOnly.bind fun _ draw _ _ => ?_
    split
    next option _ => exact (Succeeds.pure option).failsOnly
    next => exact hdead

namespace Registry.IsSound

variable {registry : Registry α}

theorem emit_failsOnly (h : registry.IsSound) (mode : ExpansionMode) (nesting : Nat) (depth : Int)
    (id : NodeId) :
    FailsOnly ExpansionFault.IsDocumented
      (registry.graph.emit mode nesting depth id : Sampling σ (List α)) := by
  induction nesting generalizing depth id with
  | zero => exact FailsOnly.throw (.inr rfl)
  | succ nesting ih =>
    unfold Graph.emit
    split
    next => exact (Succeeds.pure _).failsOnly
    next value _ => exact (Succeeds.pure [value]).failsOnly
    next shape hshape =>
      exact Composite.expand_failsOnly (h id shape hshape)
        (fun options _ => chooseOption_failsOnly options) fun entered child _ => ih entered child

theorem exists_cautions (h : registry.IsSound) (mode : RepetitionMode) (id : NodeId) :
    ∃ cautions, registry.cautionsAt mode id = .ok cautions := by
  unfold cautionsAt
  split
  next options _ => exact ⟨_, rfl⟩
  next body count hshape =>
    have hcount : count.IsAmount := (h id _ hshape).count count rfl
    obtain ⟨times, htimes⟩ := hcount.isUsableCount.rounded
    rw [htimes]
    exact ⟨_, rfl⟩
  next => exact ⟨[], rfl⟩

theorem exists_report (h : registry.IsSound) (mode : RepetitionMode) :
    ∃ report, registry.validate mode = .ok report := by
  obtain ⟨cautions, hcautions⟩ :=
    exists_mapM_eq_ok fun id (_ : id ∈ registry.reachable) => h.exists_cautions mode id
  unfold validate
  simp only [hcautions]
  exact ⟨_, rfl⟩

end Registry.IsSound

theorem Grammar.generateWith_isDocumented {grammar : Grammar α} (h : grammar.registry.IsSound)
    {nesting : Nat} {name : Option String} {source last : σ} {reason : GenerationError}
    (hfails : grammar.generateWith nesting name source = (.error reason, last)) :
    reason.IsDocumented := by
  unfold generateWith at hfails
  simp only at hfails
  split at hfails
  next =>
    cases hfails
    trivial
  next rule id _ =>
    split at hfails
    next => cases hfails
    next fault after hrun =>
      cases hfails
      exact h.emit_failsOnly grammar.settings.expansionMode nesting 0 id source fault _ hrun

end Expansion

namespace Session

/-- In every state of a session, the composites that can be reached are sound and their counts can
be repeated; a compilation fails only by a fault of a rule, a generation only by a documented error,
and a validation never. -/
theorem faults_documented (policy : LiteralPolicy α) (settings : Settings) (entropy : Twister)
    (steps : List (Step α)) :
    let reached := after policy settings entropy steps
    (∀ id shape, reached.registry.Reaches id →
      reached.registry.graph.node? id = some (.composite shape) →
        shape.IsSound ∧ ∀ count ∈ shape.count?, count.IsUsableCount) ∧
    (∀ name text reason, (reached.grammar.compile name text).1 = .error reason →
      ∃ fault, reason = .rule fault) ∧
    (∀ (σ : Type) [RandomSource σ] (generation : Settings) (start name : Option String)
      (nesting : Nat) (source last : σ) (reason : GenerationError),
      { reached.grammar with settings := generation, start := start }.generateWith nesting name
        source = (.error reason, last) → reason.IsDocumented) ∧
    ∀ mode, ∃ report, reached.registry.validate mode = .ok report := by
  intro reached
  have hsound : reached.registry.IsSound := isSound_after policy settings entropy steps
  refine ⟨?_, ?_, ?_, hsound.exists_report⟩
  · intro id shape _ hshape
    have hshape := hsound id shape hshape
    exact ⟨hshape, fun count hcount => (hshape.count count hcount).isUsableCount⟩
  · intro name text reason hfails
    rcases reached.grammar.compile_decides name text with
      ⟨compilation, _, hsucceeds, _⟩ | ⟨fault, hfault, _⟩
    · rw [hsucceeds] at hfails
      cases hfails
    · rw [hfault] at hfails
      cases hfails
      exact ⟨fault, rfl⟩
  · intro σ _ generation start name nesting source last reason hfails
    have hgrammar : { reached.grammar with settings := generation, start := start
        }.registry.IsSound := hsound
    exact Grammar.generateWith_isDocumented hgrammar hfails

/-- The largest double as a count, a number above it, and a selection between zeros. -/
theorem faults_documented_at_largest_count :
    let reached := after (.every id) {} (.ofSeed 0)
      [Step.compile "big" "x # 1.7976931348623157e308", Step.compile "dead" "-0 x | 1e-400 y"]
    let largest := Binary64.ofBits 0x7fefffffffffffff
    let overflow := RuleError.malformedNumber "1e309" "repeat count"
    let dead := GenerationError.expansion "dead" .deadSelect
    (reached.registry.find? "big" = some 1 ∧
      reached.registry.graph.node? 1 = some (.composite (.repetition 0 largest)) ∧
      largest.IsUsableCount) ∧
    ((reached.grammar.compile "more" "x # 1e309").1 = .error (.rule overflow) ∧
      ∃ fault, CompileError.rule overflow = .rule fault) ∧
    ({ reached.grammar with settings := {}, start := some "dead" }.generateWith 9 none
      (Script.ofList []) = (.error dead, Script.ofList []) ∧ dead.IsDocumented) ∧
    ∃ report, reached.registry.validate .fixed = .ok report := by
  intro reached largest overflow dead
  obtain ⟨hshapes, hcompile, hgenerate, hvalidate⟩ := faults_documented (.every id) {} (.ofSeed 0)
    [Step.compile "big" "x # 1.7976931348623157e308", Step.compile "dead" "-0 x | 1e-400 y"]
  have hname : reached.registry.find? "big" = some 1 := by decide +kernel
  have hnode : reached.registry.graph.node? 1 = some (.composite (.repetition 0 largest)) := by
    decide +kernel
  have hreaches : reached.registry.Reaches 1 := .root (Registry.mem_targets_iff.mpr ⟨"big", hname⟩)
  have hoverflow : (reached.grammar.compile "more" "x # 1e309").1 = .error (.rule overflow) := by
    decide +kernel
  have hdead : { reached.grammar with settings := {}, start := some "dead" }.generateWith 9 none
      (Script.ofList []) = (.error dead, Script.ofList []) := by
    decide +kernel
  refine ⟨⟨hname, hnode, ?_⟩, ⟨hoverflow, hcompile _ _ _ hoverflow⟩, ⟨hdead, ?_⟩, hvalidate .fixed⟩
  · exact (hshapes 1 _ hreaches hnode).2 largest rfl
  · exact hgenerate Script {} (some "dead") none 9 _ _ dead hdead

/-- A validation fails only where a valid grammar is required and there are errors, and then it
tells all of them. -/
theorem validateWith_eq_error_iff (policy : LiteralPolicy α) (settings : Settings)
    (entropy : Twister) (steps : List (Step α)) (checked : Settings) (required : Bool)
    (fault : ValidationFault) :
    let grammar := { (after policy settings entropy steps).grammar with settings := checked }
    grammar.validateWith required = .error fault ↔ required = true ∧ ∃ report,
      grammar.validate = .ok report ∧ ¬report.IsValid ∧
        fault = .invalid (grammar.registry.errorTexts report) := by
  intro grammar
  have hsound : grammar.registry.IsSound := isSound_after policy settings entropy steps
  obtain ⟨report, hreport⟩ := hsound.exists_report checked.mode
  have hvalidate : grammar.validate = .ok report := hreport
  unfold Grammar.validateWith
  rw [hvalidate]
  simp only
  by_cases hrefused : required = true ∧ ¬report.IsValid
  · rw [if_pos hrefused]
    constructor
    · rintro ⟨⟩
      exact ⟨hrefused.1, report, rfl, hrefused.2, rfl⟩
    · rintro ⟨-, other, hother, -, rfl⟩
      cases hother
      rfl
  · rw [if_neg hrefused]
    constructor
    · intro hfails
      cases hfails
    · rintro ⟨hrequired, other, hother, hinvalid, -⟩
      cases hother
      exact absurd ⟨hrequired, hinvalid⟩ hrefused

end Session

end StochasticGrammar
