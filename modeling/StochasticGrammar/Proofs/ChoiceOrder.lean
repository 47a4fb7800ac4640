import StochasticGrammar.Proofs.RoundingOrder
import StochasticGrammar.Proofs.WeightedChoice

namespace StochasticGrammar

variable {ρ : Type}

theorem totalWeight_le_zero_iff {options : List (ρ × Binary64)}
    (hamounts : ∀ weight ∈ options.map Prod.snd, weight.IsAmount) :
    totalWeight options ≤ 0 ↔ ∀ weight ∈ options.map Prod.snd, weight.IsZero := by
  constructor
  · intro htotal weight hmem
    have hterm := Binary64.le_sum (fun other hother => (hamounts other hother).nonneg) hmem
    refine (hamounts weight hmem).isZero_of_not_lt fun hpos => ?_
    obtain ⟨place, limit, hplace, hlimit, hle⟩ := Binary64.le_trans hterm htotal
    obtain rfl : (0 : Int) = limit := Option.some.inj hlimit
    have hless : 0 < weight ↔ 0 < place := Binary64.lt_of_rank rfl hplace
    have hplace := hless.mp hpos
    omega
  · intro hzeros
    exact ⟨0, 0, Binary64.isZero_sum hzeros, rfl, Int.le_refl 0⟩

section Increasing

variable {options : List ((ρ × Nat) × Binary64)} {draw later : Binary64}

theorem firstAbove?_of_later {running : Binary64} {second : ρ × Nat}
    (hincreasing : options.Pairwise fun option other => option.1.2 < other.1.2)
    (hearlier : ∀ value, later < value → draw < value)
    (h : firstAbove? later running options = some second) :
    ∃ first, firstAbove? draw running options = some first ∧ first.2 ≤ second.2 := by
  induction options generalizing running with
  | nil => cases h
  | cons option rest ih =>
    obtain ⟨hbefore, hrest⟩ := List.pairwise_cons.mp hincreasing
    simp only [firstAbove?] at h ⊢
    by_cases hlater : later < running + option.2
    · rw [if_pos hlater] at h
      obtain rfl := Option.some.inj h
      exact ⟨option.1, if_pos (hearlier _ hlater), Nat.le_refl _⟩
    · rw [if_neg hlater] at h
      split
      next =>
        obtain ⟨weight, passed, hmem, -⟩ := exists_of_firstAbove? h
        exact ⟨option.1, rfl, Nat.le_of_lt (hbefore _ hmem)⟩
      next => exact ih hrest h

theorem le_of_lastPositive? {option last : ρ × Nat} {weight : Binary64}
    (hincreasing : options.Pairwise fun option other => option.1.2 < other.1.2)
    (hmem : (option, weight) ∈ options) (hpos : 0 < weight)
    (h : lastPositive? options = some last) : option.2 ≤ last.2 := by
  obtain ⟨found, hfound, rfl⟩ := Option.map_eq_some_iff.mp h
  obtain ⟨-, passed, remaining, hsplit, hpassed⟩ := List.find?_eq_some_iff_append.mp hfound
  have hreversed : (passed ++ found :: remaining).Pairwise fun option other =>
      other.1.2 < option.1.2 := by
    rw [← hsplit]
    exact List.pairwise_reverse.mpr hincreasing
  rw [← List.mem_reverse, hsplit] at hmem
  rcases List.mem_append.mp hmem with hbefore | hfrom
  · have hzero := hpassed _ hbefore
    simp [hpos] at hzero
  · rcases List.mem_cons.mp hfrom with hsame | hafter
    · exact Nat.le_of_eq (congrArg (fun option => option.1.2) hsame)
    · have hrest := (List.pairwise_append.mp hreversed).2.1
      exact Nat.le_of_lt ((List.pairwise_cons.mp hrest).1 _ hafter)

/-- If what is above the later draw is above the earlier draw, the later draw takes no earlier
option. -/
theorem optionAt?_le_of_later {first second : ρ × Nat}
    (hincreasing : options.Pairwise fun option other => option.1.2 < other.1.2)
    (hamounts : ∀ weight ∈ options.map Prod.snd, weight.IsAmount)
    (hdraw : ¬draw < 0) (hearlier : ∀ value, later < value → draw < value)
    (h : optionAt? options draw = some first) (h' : optionAt? options later = some second) :
    first.2 ≤ second.2 := by
  obtain ⟨weight, hmem, hweight⟩ := exists_not_isZero_of_optionAt? hdraw h
  cases hlater : firstAbove? later 0 options with
  | some found =>
    obtain ⟨other, hother, hle⟩ := firstAbove?_of_later hincreasing hearlier hlater
    simp only [optionAt?, hlater, Option.orElse_some, Option.some.injEq] at h'
    simp only [optionAt?, hother, Option.orElse_some, Option.some.injEq] at h
    rwa [← h, ← h']
  | none =>
    -- the later draw has passed every running total and takes the last option that has a weight
    simp only [optionAt?, hlater, Option.orElse_none] at h'
    have hpos : 0 < weight := by
      by_contra hnone
      exact hweight ((hamounts weight (List.mem_map_of_mem hmem)).isZero_of_not_lt hnone)
    exact le_of_lastPositive? hincreasing hmem hpos h'

end Increasing

theorem numbered_increasing (options : List (ρ × Binary64)) :
    (numbered options).Pairwise fun option other => option.1.2 < other.1.2 := by
  have hnumbers : ((options.zipIdx 1).map Prod.snd).Pairwise (· < ·) := by
    rw [List.zipIdx_map_snd]
    exact List.pairwise_lt_range'
  exact List.pairwise_map.mpr (List.pairwise_map.mp hnumbers)

variable {σ : Type} [RandomSource σ] {options : List (ρ × Binary64)}

theorem chooseOption_eq_error_iff (hamounts : ∀ weight ∈ options.map Prod.snd, weight.IsAmount)
    {source after : σ} {fault : ExpansionFault} :
    (chooseOption options).run source = .error fault after ↔
      (∀ weight ∈ options.map Prod.snd, weight.IsZero) ∧ fault = .deadSelect ∧ after = source := by
  rw [← totalWeight_le_zero_iff hamounts]
  constructor
  · intro hrun
    by_cases htotal : totalWeight options ≤ 0
    · unfold chooseOption at hrun
      simp only [if_pos htotal] at hrun
      cases hrun
      exact ⟨htotal, rfl, rfl⟩
    · obtain ⟨option, last, hok⟩ := chooseOption_succeeds hamounts htotal source
      rw [hok] at hrun
      cases hrun
  · rintro ⟨htotal, rfl, rfl⟩
    unfold chooseOption
    simp only [if_pos htotal]
    rfl

/-- A choice that succeeds leaves the source after one draw. -/
theorem after_of_chooseOption {source after : σ} {option : ρ}
    (h : (chooseOption options).run source = .ok option after) :
    after = (RandomSource.draw source).2 := by
  unfold chooseOption at h
  simp only at h
  split at h
  next => cases h
  next =>
    obtain ⟨draw, between, hdraw, hchosen⟩ := run_bind_eq_ok h
    cases hdraw
    split at hchosen <;> cases hchosen
    rfl

/-- A choice fails exactly if every weight is zero, without a draw. Otherwise it makes one draw and
takes an option of positive weight, at a number that no later draw of any source falls below. -/
theorem chooseOption_follows_draw
    (hamounts : ∀ weight ∈ options.map Prod.snd, weight.IsAmount) (source : σ)
    (hdraw : (RandomSource.draw source).1.IsDraw) :
    (∀ fault after, (chooseOption options).run source = .error fault after ↔
      (∀ weight ∈ options.map Prod.snd, weight.IsZero) ∧ fault = .deadSelect ∧ after = source) ∧
    (¬(∀ weight ∈ options.map Prod.snd, weight.IsZero) → ∃ operand number weight,
      (chooseOption options).run source = .ok operand (RandomSource.draw source).2 ∧
      (chooseOption (numbered options)).run source =
        .ok (operand, number) (RandomSource.draw source).2 ∧
      1 ≤ number ∧ options[number - 1]? = some (operand, weight) ∧ 0 < weight ∧
      ∀ (τ : Type) [RandomSource τ] (later after : τ) (operand' : ρ) (number' : Nat),
        (RandomSource.draw later).1.IsDraw →
        (RandomSource.draw source).1 ≤ (RandomSource.draw later).1 →
        (chooseOption (numbered options)).run later = .ok (operand', number') after →
          number ≤ number') := by
  refine ⟨fun fault after => chooseOption_eq_error_iff hamounts, fun hweights => ?_⟩
  have hnumbered : ∀ weight ∈ (numbered options).map Prod.snd, weight.IsAmount := by
    rwa [weights_numbered]
  have htotal : ¬totalWeight (numbered options) ≤ 0 := by
    rwa [totalWeight_numbered, totalWeight_le_zero_iff hamounts]
  obtain ⟨⟨operand, number⟩, after, hrun⟩ := chooseOption_succeeds hnumbered htotal source
  obtain rfl := after_of_chooseOption hrun
  have hoption := (chooseOption_eq_ok hrun).2
  have hproduct := hdraw.not_mul_lt_zero htotal
  obtain ⟨weight, hmem, hweight⟩ := exists_not_isZero_of_optionAt? hproduct hoption
  obtain ⟨hnumber, hlisted⟩ := mem_numbered_iff.mp hmem
  refine ⟨operand, number, weight, ?_, hrun, hnumber, hlisted, ?_, ?_⟩
  · rw [chooseOption_numbered, run_bind_of_ok hrun]
    rfl
  · by_contra hnone
    exact hweight ((hnumbered weight (List.mem_map_of_mem hmem)).isZero_of_not_lt hnone)
  · intro τ _ later last operand' number' hlater hle hrun'
    have hnonneg : 0 ≤ totalWeight (numbered options) :=
      Binary64.sum_nonneg fun weight hmem => (hnumbered weight hmem).nonneg
    exact optionAt?_le_of_later (numbered_increasing options) hnumbered hproduct
      (fun value => hdraw.mul_lt_of_le hlater hle hnonneg) hoption (chooseOption_eq_ok hrun').2

/-- Weights that are finite while their total is not, and a zero of either sign. -/
def overflowing : List (String × Binary64) :=
  [("a", .signedZero true), ("b", .ofInt (tenPow 308)), ("c", .ofInt (tenPow 308)), ("d", 0)]

/-- The draw zero is scaled to a NaN and takes the last option that has a weight. -/
theorem chooseOption_follows_draw_of_overflow :
    (chooseOption overflowing).run (Script.ofList [0]) = .ok "c" ⟨#[0], 1⟩ ∧
      ∀ (later after : Script) (operand : String) (number : Nat),
        (RandomSource.draw later).1.IsDraw →
        (chooseOption (numbered overflowing)).run later = .ok (operand, number) after →
          3 ≤ number := by
  have hamounts : ∀ weight ∈ overflowing.map Prod.snd, weight.IsAmount := by
    unfold Binary64.IsAmount
    decide +kernel
  have htaken : optionAt? (numbered overflowing)
      ((RandomSource.draw (Script.ofList [0])).1 * totalWeight (numbered overflowing)) =
        some ("c", 3) := by decide +kernel
  obtain ⟨operand, number, weight, hrun, hnumbered, -, -, -, hlater⟩ :=
    (chooseOption_follows_draw hamounts (Script.ofList [0]) Binary64.isDraw_zero).2
      (by decide +kernel)
  obtain ⟨rfl, rfl⟩ := Prod.mk.inj
    (Option.some.inj ((chooseOption_eq_ok hnumbered).2.symm.trans htaken))
  exact ⟨hrun, fun later after operand number hdraw =>
    hlater Script later after operand number hdraw hdraw.nonneg⟩

end StochasticGrammar
