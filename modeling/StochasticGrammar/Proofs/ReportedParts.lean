import StochasticGrammar.Proofs.ReportedCycles
import StochasticGrammar.Proofs.WeightedChoice

namespace StochasticGrammar

section Counting

variable {β γ ε : Type}

/-- Lists that are found for distinct values hold nothing twice if what they hold tells for which
value it was found. -/
theorem nodup_flatten_of_mapM {f : β → Except ε (List γ)} {values : List β}
    {found : List (List γ)} (owner : γ → β) (h : values.mapM f = .ok found)
    (hvalues : values.Nodup)
    (hf : ∀ value results, f value = .ok results →
      results.Nodup ∧ ∀ result ∈ results, owner result = value) : found.flatten.Nodup := by
  refine List.nodup_flatten.mpr ⟨fun results hresults => ?_, ?_⟩
  · obtain ⟨value, _, hvalue⟩ := (mem_iff_of_mapM h).mp hresults
    exact (hf value results hvalue).1
  · have hmap : (found.map (Except.ok : _ → Except ε _)).Pairwise fun first second =>
        ∀ results others, first = .ok results → second = .ok others → results.Disjoint others := by
      rw [map_ok_of_mapM h, List.pairwise_map]
      refine hvalues.imp fun {value other} hne results others hresults hothers => ?_
      intro result hmem hother
      have hfirst := (hf value results hresults).2 result hmem
      have hsecond := (hf other others hothers).2 result hother
      exact hne (hfirst.symm.trans hsecond)
    exact (List.pairwise_map.mp hmap).imp fun hdisjoint => hdisjoint _ _ rfl rfl

variable [DecidableEq β]

/-- A list holds a member once if a condition is met, and otherwise not at all. -/
structure OnceIff (members : List β) (member : β) (condition : Prop) : Prop where
  once : condition → members.count member = 1
  absent : ¬condition → members.count member = 0

variable {members later : List β} {member : β} {condition : Prop}

theorem OnceIff.of_nodup (hnodup : members.Nodup) (h : member ∈ members ↔ condition) :
    OnceIff members member condition where
  once hcondition := List.count_eq_one_of_mem hnodup (h.mpr hcondition)
  absent hcondition := List.count_eq_zero.mpr fun hmem => hcondition (h.mp hmem)

theorem OnceIff.append (h : OnceIff members member condition) (hlater : member ∉ later) :
    OnceIff (members ++ later) member condition := by
  have hzero : later.count member = 0 := List.count_eq_zero.mpr hlater
  constructor
  · intro hcondition
    rw [List.count_append, h.once hcondition, hzero]
  · intro hcondition
    rw [List.count_append, h.absent hcondition, hzero]

end Counting

/-- In the mode `fixed` a repetition of this count expands its body this often, whatever it is. -/
def Repeats (count : Binary64) (times : Nat) : Prop :=
  ∀ (σ α ρ : Type) [RandomSource σ] (mode : ExpansionMode)
    (operand : Int → ρ → Sampling σ (List α)) (depth : Int) (body : ρ), mode.repetition = .fixed →
      (Composite.repetition body count).expand mode operand depth =
        repeated (operand depth body) times

theorem repeated_pure {σ α : Type} (value : α) (times : Nat) (source : σ) :
    (repeated (pure [value]) times).run source = .ok (List.replicate times value) source := by
  induction times with
  | zero => rfl
  | succ times ih =>
    unfold repeated
    have hfirst : (pure [value] : Sampling σ (List α)).run source = .ok [value] source := rfl
    rw [run_bind_of_ok hfirst, run_bind_of_ok ih]
    rfl

namespace Repeats

variable {count : Binary64} {times other : Nat}

theorem of_floor {whole : Int} (h : (count + .half).floor = .ok whole) :
    Repeats count whole.toNat := by
  intro σ α ρ _ mode operand depth body hmode
  simp only [Composite.expand, hmode, repeatCount, wholePart, h, pure_bind]

/-- A body that gives one value shows how often it is expanded. -/
theorem unique (h : Repeats count times) (hother : Repeats count other) : times = other := by
  let body : Int → Unit → Sampling Script (List Unit) := fun _ _ => pure [()]
  have hsame := (h Script Unit Unit ⟨0, .fixed⟩ body 0 () rfl).symm.trans
    (hother Script Unit Unit ⟨0, .fixed⟩ body 0 () rfl)
  have hrun := congrArg (fun step => step.run (Script.ofList [])) hsame
  simp only [body, repeated_pure, EStateM.Result.ok.injEq, and_true] at hrun
  simpa using congrArg List.length hrun

end Repeats

namespace Binary64.IsAmount

variable {count : Binary64}

theorem existsUnique_repeats (h : count.IsAmount) : ∃! times, Repeats count times := by
  obtain ⟨whole, hfloor⟩ := h.add_half_isFinite.exists_floor
  exact ⟨whole.toNat, .of_floor hfloor, fun other hother => hother.unique (.of_floor hfloor)⟩

theorem repeats_zero_iff (h : count.IsAmount) :
    Repeats count 0 ↔ (count + half).floor = .ok 0 := by
  constructor
  · intro hzero
    obtain ⟨whole, hfloor⟩ := h.add_half_isFinite.exists_floor
    have hnonneg := h.floor_add_half_nonneg hfloor
    have htimes := hzero.unique (.of_floor hfloor)
    obtain rfl : whole = 0 := by omega
    exact hfloor
  · exact fun hfloor => .of_floor hfloor

end Binary64.IsAmount

variable {α : Type}

def Caution.node : Caution → NodeId
  | neverChosen node _ => node
  | producesNothing node _ => node

namespace Registry

variable {registry : Registry α} {mode : RepetitionMode} {id : NodeId}

/-- A composite node that some name stands for. -/
def Registers (registry : Registry α) (id : NodeId) (shape : Composite NodeId) : Prop :=
  (∃ name, registry.find? name = some id) ∧ registry.graph.node? id = some (.composite shape)

theorem nodup_problemsAt (registry : Registry α) (id : NodeId) :
    (registry.problemsAt id).Nodup := by
  unfold problemsAt
  split
  next options _ => split <;> simp
  next => exact List.nodup_nil

/-- What there is to warn about at a node: an option of weight zero, or a repetition whose count is
rounded to zero. -/
inductive Warrants (registry : Registry α) (mode : RepetitionMode) (id : NodeId) : Caution → Prop
  | neverChosen {options : List (NodeId × Binary64)} {number : Nat}
      (hnode : registry.graph.node? id = some (.composite (.select options)))
      (hdead : number ∈ deadOptions options) : Warrants registry mode id (.neverChosen id number)
  | producesNothing {body : NodeId} {count : Binary64} (hmode : mode = .fixed)
      (hnode : registry.graph.node? id = some (.composite (.repetition body count)))
      (hfloor : (count + .half).floor = .ok 0) :
      Warrants registry mode id (.producesNothing id count)

theorem mem_cautionsAt_iff {found : List Caution} (h : registry.cautionsAt mode id = .ok found)
    {caution : Caution} : caution ∈ found ↔ registry.Warrants mode id caution := by
  unfold cautionsAt at h
  split at h
  next options hnode =>
    cases h
    constructor
    · intro hmem
      obtain ⟨number, hdead, rfl⟩ := List.mem_map.mp hmem
      exact .neverChosen hnode hdead
    · rintro (⟨hother, hdead⟩ | ⟨_, hother, _⟩)
      · cases hnode.symm.trans hother
        exact List.mem_map.mpr ⟨_, hdead, rfl⟩
      · cases hnode.symm.trans hother
  next body count hnode =>
    obtain ⟨times, htimes, h⟩ := bind_eq_ok h
    cases h
    constructor
    · intro hmem
      split at hmem
      next hzero =>
        subst hzero
        cases List.mem_singleton.mp hmem
        exact .producesNothing rfl hnode htimes
      next => cases hmem
    · rintro (⟨hother, _⟩ | ⟨_, hother, hfloor⟩)
      · cases hnode.symm.trans hother
      · cases hnode.symm.trans hother
        cases htimes.symm.trans hfloor
        exact List.mem_singleton.mpr rfl
  next hselect hrepetition =>
    cases h
    refine iff_of_false List.not_mem_nil ?_
    rintro (⟨hother, _⟩ | ⟨hmode, hother, _⟩)
    · exact hselect _ hother
    · exact hrepetition _ _ hother hmode

theorem nodup_cautionsAt {found : List Caution} (h : registry.cautionsAt mode id = .ok found) :
    found.Nodup := by
  unfold cautionsAt at h
  split at h
  next options _ =>
    cases h
    exact (nodup_deadOptions options).map fun first second heq => by cases heq; rfl
  next =>
    obtain ⟨times, _, h⟩ := bind_eq_ok h
    cases h
    split <;> simp
  next =>
    cases h
    exact List.nodup_nil

theorem Warrants.node_eq {caution : Caution} (h : registry.Warrants mode id caution) :
    caution.node = id := by
  cases h <;> rfl

/-- The reachable nodes are looked at once each, and what is said about one names it. -/
theorem nodup_problems (registry : Registry α) :
    (registry.reachable.flatMap registry.problemsAt).Nodup := by
  have hnodes : registry.reachable.Nodup := Graph.nodup_explore _ _ _
  refine List.nodup_flatMap.mpr ⟨fun id _ => registry.nodup_problemsAt id, hnodes.imp ?_⟩
  intro id other hne problem hproblem hother
  have hfirst := (mem_problemsAt_iff.mp hproblem).1
  have hsecond := (mem_problemsAt_iff.mp hother).1
  exact hne (Problem.deadSelect.inj (hfirst.symm.trans hsecond))

theorem nodup_cautions {found : List (List Caution)}
    (h : registry.reachable.mapM (registry.cautionsAt mode) = .ok found) : found.flatten.Nodup := by
  refine nodup_flatten_of_mapM Caution.node h (Graph.nodup_explore _ _ _) ?_
  intro id cautions hcautions
  exact ⟨nodup_cautionsAt hcautions, fun caution hmem =>
    ((mem_cautionsAt_iff hcautions).mp hmem).node_eq⟩

theorem mem_cautions_iff {found : List (List Caution)}
    (h : registry.reachable.mapM (registry.cautionsAt mode) = .ok found) {caution : Caution} :
    caution ∈ found.flatten ↔ ∃ id, registry.Reaches id ∧ registry.Warrants mode id caution := by
  constructor
  · intro hmem
    obtain ⟨cautions, hcautions, hcaution⟩ := List.mem_flatten.mp hmem
    obtain ⟨id, hid, hat⟩ := (mem_iff_of_mapM h).mp hcautions
    exact ⟨id, mem_reachable_iff.mp hid, (mem_cautionsAt_iff hat).mp hcaution⟩
  · rintro ⟨id, hid, hcaution⟩
    have hsome : registry.cautionsAt mode id ∈ found.map Except.ok := by
      rw [map_ok_of_mapM h]
      exact List.mem_map_of_mem (mem_reachable_iff.mpr hid)
    obtain ⟨cautions, hcautions, hat⟩ := List.mem_map.mp hsome
    exact List.mem_flatten.mpr ⟨cautions, hcautions, (mem_cautionsAt_iff hat.symm).mpr hcaution⟩

theorem IsClosed.reaches_iff (hclosed : registry.IsClosed) :
    registry.Reaches id ↔ ∃ name, registry.find? name = some id := by
  rw [← mem_targets_iff]
  exact ⟨hclosed.mem_targets_of_reaches, .root⟩

namespace IsSound

variable {options : List (NodeId × Binary64)} {body : NodeId} {count : Binary64}

theorem weights_of_registers (hsound : registry.IsSound)
    (h : registry.Registers id (.select options)) :
    ∀ weight ∈ options.map Prod.snd, weight.IsAmount :=
  (hsound id _ h.2).weights

theorem count_of_registers (hsound : registry.IsSound)
    (h : registry.Registers id (.repetition body count)) : count.IsAmount :=
  (hsound id _ h.2).count count rfl

theorem deadSelect_mem_iff (hsound : registry.IsSound) (hclosed : registry.IsClosed) :
    .deadSelect id ∈ registry.reachable.flatMap registry.problemsAt ↔
      ∃ options, registry.Registers id (.select options) ∧ NeverChooses options := by
  constructor
  · intro hmem
    obtain ⟨place, hplace, hproblem⟩ := List.mem_flatMap.mp hmem
    obtain ⟨heq, options, hnode, htotal⟩ := mem_problemsAt_iff.mp hproblem
    cases heq
    have hselect : registry.Registers id (.select options) :=
      ⟨hclosed.reaches_iff.mp (mem_reachable_iff.mp hplace), hnode⟩
    exact ⟨options, hselect, (neverChooses_iff (hsound.weights_of_registers hselect)).mpr htotal⟩
  · rintro ⟨options, hselect, hnever⟩
    have htotal := (neverChooses_iff (hsound.weights_of_registers hselect)).mp hnever
    exact List.mem_flatMap.mpr ⟨id, mem_reachable_iff.mpr (hclosed.reaches_iff.mpr hselect.1),
      mem_problemsAt_iff.mpr ⟨rfl, options, hselect.2, htotal⟩⟩

theorem producesNothing_warranted_iff (hsound : registry.IsSound) (hclosed : registry.IsClosed) :
    (∃ place, registry.Reaches place ∧ registry.Warrants mode place (.producesNothing id count)) ↔
      mode = .fixed ∧ ∃ body, registry.Registers id (.repetition body count) ∧ Repeats count 0 := by
  constructor
  · rintro ⟨_, hplace, hwarrants⟩
    cases hwarrants with
    | producesNothing hmode hnode hfloor =>
      exact ⟨hmode, _, ⟨hclosed.reaches_iff.mp hplace, hnode⟩, .of_floor hfloor⟩
  · rintro ⟨hmode, body, hrepetition, hzero⟩
    have hfloor := (hsound.count_of_registers hrepetition).repeats_zero_iff.mp hzero
    exact ⟨id, hclosed.reaches_iff.mpr hrepetition.1, .producesNothing hmode hrepetition.2 hfloor⟩

end IsSound

theorem IsClosed.neverChosen_warranted_iff (hclosed : registry.IsClosed) {number : Nat} :
    (∃ place, registry.Reaches place ∧ registry.Warrants mode place (.neverChosen id number)) ↔
      ∃ options operand weight, registry.Registers id (.select options) ∧
        ((operand, number), weight) ∈ numbered options ∧ weight.IsZero := by
  constructor
  · rintro ⟨_, hplace, hwarrants⟩
    cases hwarrants with
    | neverChosen hnode hdead =>
      obtain ⟨operand, weight, hoption, hzero⟩ := mem_deadOptions_iff.mp hdead
      exact ⟨_, operand, weight, ⟨hclosed.reaches_iff.mp hplace, hnode⟩, hoption, hzero⟩
  · rintro ⟨options, operand, weight, ⟨hname, hnode⟩, hoption, hzero⟩
    exact ⟨id, hclosed.reaches_iff.mpr hname,
      .neverChosen hnode (mem_deadOptions_iff.mpr ⟨operand, weight, hoption, hzero⟩)⟩

end Registry

namespace Session

/-- In every state of a session and with all settings, a registered selection is reported once if
its choice fails for every draw, and not at all if some draw stops at an option. An option of a
registered selection is warned about once if its weight is zero, and then no draw stops at it. A
registered repetition is warned about once if the mode is `fixed` and it repeats nothing in this
mode. There are no other reports of these kinds. -/
theorem dead_parts_reported (policy : LiteralPolicy α) (settings : Settings) (entropy : Twister)
    (steps : List (Step α)) (checked : Settings) :
    let reached := after policy settings entropy steps
    let registry := reached.registry
    ∃ report, { reached.grammar with settings := checked }.validate = .ok report ∧
      (∀ id, OnceIff report.problems (.deadSelect id)
        (∃ options, registry.Registers id (.select options) ∧ NeverChooses options)) ∧
      (∀ id options, registry.Registers id (.select options) →
        (NeverChooses options ↔ ∀ number, ¬StopsAt options number)) ∧
      (∀ id number, OnceIff report.cautions (.neverChosen id number)
        (∃ options operand weight, registry.Registers id (.select options) ∧
          ((operand, number), weight) ∈ numbered options ∧ weight.IsZero)) ∧
      (∀ id options number, registry.Registers id (.select options) →
        .neverChosen id number ∈ report.cautions → ¬StopsAt options number) ∧
      (∀ id body count, registry.Registers id (.repetition body count) →
        ∃! times, Repeats count times) ∧
      (∀ id count, OnceIff report.cautions (.producesNothing id count)
        (checked.mode = .fixed ∧ ∃ body, registry.Registers id (.repetition body count) ∧
          Repeats count 0)) := by
  intro reached registry
  have hsound : registry.IsSound := isSound_after policy settings entropy steps
  have hclosed : registry.IsClosed := isClosed_after policy settings entropy steps
  obtain ⟨report, hreport⟩ := hsound.exists_report checked.mode
  obtain ⟨found, hfound, hproblems, hcautions⟩ := Registry.report_eq hreport
  have hnodup : report.cautions.Nodup := hcautions ▸ Registry.nodup_cautions hfound
  have hmem : ∀ caution, caution ∈ report.cautions ↔
      ∃ id, registry.Reaches id ∧ registry.Warrants checked.mode id caution :=
    fun caution => hcautions ▸ Registry.mem_cautions_iff hfound
  refine ⟨report, hreport, ?_, ?_, ?_, ?_, ?_, ?_⟩
  · intro id
    rw [hproblems]
    exact .append (.of_nodup registry.nodup_problems (hsound.deadSelect_mem_iff hclosed)) (by simp)
  · exact fun id options hselect =>
      neverChooses_iff_not_stopsAt (hsound.weights_of_registers hselect)
  · exact fun id number => .of_nodup hnodup ((hmem _).trans hclosed.neverChosen_warranted_iff)
  · intro id options number hselect hcaution
    obtain ⟨others, operand, weight, hother, hoption, hzero⟩ :=
      hclosed.neverChosen_warranted_iff.mp ((hmem _).mp hcaution)
    cases hselect.2.symm.trans hother.2
    exact not_stopsAt_of_isZero hoption hzero
  · exact fun id body count hrepetition =>
      (hsound.count_of_registers hrepetition).existsUnique_repeats
  · exact fun id count =>
      .of_nodup hnodup ((hmem _).trans (hsound.producesNothing_warranted_iff hclosed))

/-- A selection that has two names and two parents and whose weights are zeros of both signs, one
that has an option of weight zero, and a repetition for a quarter. -/
theorem dead_parts_reported_of_shared_selection :
    let steps : List (Step String) :=
      [.compile "dead" "0 a | -0 b", .compile "alias" "dead", .compile "pair" "dead & alias",
        .compile "biased" "2 a | 0 b", .compile "none" "a # 0.25"]
    let reached := after (.every id) {} (.ofSeed 0) steps
    let biased : List (NodeId × Binary64) := [(0, .ofInt 2), (1, 0)]
    let quarter : Binary64 := .ofRatio false stepsPerOne 4
    ∃ report, { reached.grammar with settings := {} }.validate = .ok report ∧
      reached.registry.Registers 2 (.select [(0, 0), (1, -0)]) ∧
      NeverChooses [((0 : NodeId), 0), (1, -0)] ∧ report.problems.count (.deadSelect 2) = 1 ∧
      reached.registry.Registers 4 (.select biased) ∧ report.problems.count (.deadSelect 4) = 0 ∧
      report.cautions.count (.neverChosen 4 2) = 1 ∧ ¬StopsAt biased 2 ∧
      reached.registry.Registers 5 (.repetition 0 quarter) ∧ Repeats quarter 0 ∧
      report.cautions.count (.producesNothing 5 quarter) = 1 := by
  intro steps reached biased quarter
  obtain ⟨report, hreport, hselects, _, hoptions, hstops, _, hrepetitions⟩ :=
    dead_parts_reported (.every id) {} (.ofSeed 0) steps {}
  have hsound : reached.registry.IsSound := isSound_after (.every id) {} (.ofSeed 0) steps
  have hdead : reached.registry.Registers 2 (.select [(0, 0), (1, -0)]) :=
    ⟨⟨"alias", by decide +kernel⟩, by decide +kernel⟩
  have hbiased : reached.registry.Registers 4 (.select biased) :=
    ⟨⟨"biased", by decide +kernel⟩, by decide +kernel⟩
  have hnone : reached.registry.Registers 5 (.repetition 0 quarter) :=
    ⟨⟨"none", by decide +kernel⟩, by decide +kernel⟩
  have hnever : NeverChooses [((0 : NodeId), 0), (1, -0)] :=
    (neverChooses_iff (hsound.weights_of_registers hdead)).mpr (by decide +kernel)
  have hlive : ¬∃ options, reached.registry.Registers 4 (.select options) ∧
      NeverChooses options := by
    rintro ⟨options, hoptions, hfails⟩
    cases hbiased.2.symm.trans hoptions.2
    have htotal := (neverChooses_iff (hsound.weights_of_registers hbiased)).mp hfails
    exact absurd htotal (by decide +kernel)
  have hwarned : report.cautions.count (.neverChosen 4 2) = 1 :=
    (hoptions 4 2).once ⟨biased, 1, 0, hbiased, by decide +kernel, by decide +kernel⟩
  have hzero : Repeats quarter 0 :=
    (hsound.count_of_registers hnone).repeats_zero_iff.mpr (by decide +kernel)
  refine ⟨report, hreport, hdead, hnever, (hselects 2).once ⟨_, hdead, hnever⟩, hbiased,
    (hselects 4).absent hlive, hwarned, ?_, hnone, hzero,
    (hrepetitions 5 quarter).once ⟨rfl, 0, hnone, hzero⟩⟩
  exact hstops 4 biased 2 hbiased (List.count_pos_iff.mp (by omega))

end Session

end StochasticGrammar
