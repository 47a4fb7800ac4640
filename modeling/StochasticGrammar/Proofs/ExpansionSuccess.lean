import StochasticGrammar.Expansion
import StochasticGrammar.Proofs.AmountRounding
import StochasticGrammar.Proofs.ExpansionRefinement

namespace StochasticGrammar

variable {σ β γ : Type}

def Succeeds (step : Sampling σ β) : Prop :=
  ∀ source, ∃ value after, step.run source = .ok value after

/-- The step fails, if it fails, by a fault that is allowed. -/
def FailsOnly (allowed : ExpansionFault → Prop) (step : Sampling σ β) : Prop :=
  ∀ source fault after, step.run source = .error fault after → allowed fault

variable {allowed : ExpansionFault → Prop}

theorem succeeds_iff_failsOnly {step : Sampling σ β} :
    Succeeds step ↔ FailsOnly (fun _ => False) step := by
  constructor
  · intro h source fault last hrun
    obtain ⟨value, after, hok⟩ := h source
    rw [hok] at hrun
    cases hrun
  · intro h source
    cases hrun : step.run source with
    | ok value after => exact ⟨value, after, rfl⟩
    | error fault after => exact (h source fault after hrun).elim

theorem Succeeds.failsOnly {step : Sampling σ β} (h : Succeeds step) : FailsOnly allowed step :=
  fun source fault after hrun => (succeeds_iff_failsOnly.mp h source fault after hrun).elim

namespace FailsOnly

theorem throw {fault : ExpansionFault} (h : allowed fault) :
    FailsOnly allowed (throw fault : Sampling σ β) := by
  intro source other after hrun
  cases hrun
  exact h

theorem bind {first : Sampling σ β} {next : β → Sampling σ γ} (h : FailsOnly allowed first)
    (hnext : ∀ source value between, first.run source = .ok value between →
      FailsOnly allowed (next value)) : FailsOnly allowed (first >>= next) := by
  intro source fault last hrun
  rcases run_bind_eq_error hrun with hfirst | ⟨value, between, hfirst, hlater⟩
  · exact h source fault last hfirst
  · exact hnext source value between hfirst between fault last hlater

end FailsOnly

namespace Succeeds

theorem pure (value : β) : Succeeds (pure value : Sampling σ β) := fun source => ⟨value, source, rfl⟩

theorem bind {first : Sampling σ β} {next : β → Sampling σ γ} (h : Succeeds first)
    (hnext : ∀ source value between, first.run source = .ok value between →
      Succeeds (next value)) : Succeeds (first >>= next) :=
  succeeds_iff_failsOnly.mpr (h.failsOnly.bind fun source value between hfirst =>
    (hnext source value between hfirst).failsOnly)

end Succeeds

namespace FailsOnly

variable {α ρ : Type}

theorem inOrder {step : ρ → Sampling σ (List α)} {operands : List ρ}
    (h : ∀ operand ∈ operands, FailsOnly allowed (step operand)) :
    FailsOnly allowed (inOrder step operands) := by
  induction operands with
  | nil => exact (Succeeds.pure []).failsOnly
  | cons operand rest ih =>
    have hrest := ih fun other hother => h other (List.mem_cons_of_mem operand hother)
    exact (h operand List.mem_cons_self).bind fun _ _ _ _ =>
      hrest.bind fun _ _ _ _ => (Succeeds.pure _).failsOnly

theorem repeated {step : Sampling σ (List α)} (h : FailsOnly allowed step) (count : Nat) :
    FailsOnly allowed (repeated step count) := by
  induction count with
  | zero => exact (Succeeds.pure []).failsOnly
  | succ count ih =>
    exact h.bind fun _ _ _ _ => ih.bind fun _ _ _ _ => (Succeeds.pure _).failsOnly

end FailsOnly

theorem wholePart_succeeds {value : Binary64} (h : value.IsFinite) :
    Succeeds (wholePart value : Sampling σ Int) := by
  obtain ⟨whole, hfloor⟩ := h.exists_floor
  unfold wholePart
  rw [hfloor]
  exact Succeeds.pure whole

variable [RandomSource σ]

theorem drawOne_succeeds : Succeeds (drawOne : Sampling σ Binary64) :=
  fun source => ⟨(RandomSource.draw source).1, (RandomSource.draw source).2, rfl⟩

theorem repeatCount_succeeds (mode : RepetitionMode) {count : Binary64} (h : count.IsAmount) :
    Succeeds (repeatCount mode count : Sampling σ Int) := by
  cases mode with
  | fixed => exact wholePart_succeeds h.add_half_isFinite
  | expected =>
    refine (wholePart_succeeds h.1).bind fun _ whole _ _ => ?_
    simp only
    split
    next => exact drawOne_succeeds.bind fun _ _ _ _ => Succeeds.pure _
    next => exact Succeeds.pure _

theorem exists_lastPositive? {ρ : Type} {options : List (ρ × Binary64)} {option : ρ × Binary64}
    (hmem : option ∈ options) (hpos : 0 < option.2) :
    ∃ last, lastPositive? options = some last := by
  have hfind : (options.reverse.find? (0 < ·.2)).isSome = true :=
    List.find?_isSome.mpr ⟨option, List.mem_reverse.mpr hmem, by simpa using hpos⟩
  obtain ⟨found, hfound⟩ := Option.isSome_iff_exists.mp hfind
  exact ⟨found.1, by rw [lastPositive?, hfound]; rfl⟩

/-- Weights that do not add up to zero are not all zero, so that some option is left for every
draw. -/
theorem exists_optionAt? {ρ : Type} {options : List (ρ × Binary64)}
    (hamounts : ∀ weight ∈ options.map Prod.snd, weight.IsAmount)
    (htotal : ¬totalWeight options ≤ 0) (draw : Binary64) :
    ∃ option, optionAt? options draw = some option := by
  have hpositive : ∃ option ∈ options, 0 < option.2 := by
    by_contra hnone
    have hzero : (totalWeight options).IsZero := by
      refine Binary64.isZero_sum fun weight hmem => ?_
      obtain ⟨option, hoption, rfl⟩ := List.mem_map.mp hmem
      exact (hamounts _ hmem).isZero_of_not_lt fun hless => hnone ⟨option, hoption, hless⟩
    exact htotal ⟨0, 0, hzero, rfl, Int.le_refl 0⟩
  obtain ⟨option, hmem, hless⟩ := hpositive
  obtain ⟨last, hlast⟩ := exists_lastPositive? hmem hless
  unfold optionAt?
  cases firstAbove? draw 0 options with
  | some first => exact ⟨first, rfl⟩
  | none => exact ⟨last, hlast⟩

theorem chooseOption_succeeds {ρ : Type} {options : List (ρ × Binary64)}
    (hamounts : ∀ weight ∈ options.map Prod.snd, weight.IsAmount)
    (htotal : ¬totalWeight options ≤ 0) : Succeeds (chooseOption options : Sampling σ ρ) := by
  unfold chooseOption
  simp only [if_neg htotal]
  refine drawOne_succeeds.bind fun _ draw _ _ => ?_
  obtain ⟨option, hoption⟩ := exists_optionAt? hamounts htotal (draw * totalWeight options)
  rw [hoption]
  exact Succeeds.pure option

/-- A selection has some weight; other composites need nothing. -/
def Composite.IsAlive {ρ : Type} (shape : Composite ρ) : Prop :=
  ∀ options, shape = .select options → ¬totalWeight options ≤ 0

/-- The operands that an expansion may enter from a depth, and the depths that it enters them at. -/
def Composite.Enters {ρ : Type} (bound depth : Int) (shape : Composite ρ) (entered : Int)
    (operand : ρ) : Prop :=
  match shape with
  | fallback primary alternate =>
    if bound ≤ depth then entered = depth ∧ operand = alternate
    else entered = depth + 1 ∧ operand = primary
  | shape => entered = depth ∧ operand ∈ shape.operands

/-- A sound composite fails only as the operands that it enters and the choice of its options do. -/
theorem Composite.expand_failsOnly {α ρ : Type} {mode : ExpansionMode}
    {operand : Int → ρ → Sampling σ (List α)} {depth : Int} {shape : Composite ρ}
    (hsound : shape.IsSound)
    (hchoice : ∀ options, shape = .select options →
      FailsOnly allowed (chooseOption options : Sampling σ ρ))
    (h : ∀ entered id, shape.Enters mode.bound depth entered id →
      FailsOnly allowed (operand entered id)) :
    FailsOnly allowed (shape.expand mode operand depth) := by
  cases shape with
  | sequence elements => exact FailsOnly.inOrder fun element hmem => h depth element ⟨rfl, hmem⟩
  | select options =>
    refine (hchoice options rfl).bind fun source option between hoption => h depth option ⟨rfl, ?_⟩
    exact mem_of_optionAt? (chooseOption_eq_ok hoption).2
  | repetition body count =>
    have htimes : FailsOnly allowed (repeatCount mode.repetition count : Sampling σ Int) :=
      (repeatCount_succeeds mode.repetition (hsound.count count rfl)).failsOnly
    exact htimes.bind fun _ times _ _ =>
      (h depth body ⟨rfl, List.mem_cons_self⟩).repeated times.toNat
  | fallback primary alternate =>
    simp only [expand, shouldFallBack, decide_eq_true_eq]
    split
    next hbound => exact h depth alternate (by simp [Enters, hbound])
    next hbound => exact h (depth + 1) primary (by simp [Enters, hbound])

/-- A sound composite succeeds if the operands that it enters succeed. -/
theorem Composite.expand_succeeds {α ρ : Type} {mode : ExpansionMode}
    {operand : Int → ρ → Sampling σ (List α)} {depth : Int} {shape : Composite ρ}
    (hsound : shape.IsSound) (halive : shape.IsAlive)
    (h : ∀ entered id, shape.Enters mode.bound depth entered id → Succeeds (operand entered id)) :
    Succeeds (shape.expand mode operand depth) := by
  refine succeeds_iff_failsOnly.mpr (expand_failsOnly hsound ?_ ?_)
  · rintro options rfl
    exact (chooseOption_succeeds hsound.weights (halive options rfl)).failsOnly
  · exact fun entered id henters => (h entered id henters).failsOnly

end StochasticGrammar
