import StochasticGrammar.Proofs.NearestDouble
import Mathlib.Tactic.FieldSimp

namespace StochasticGrammar

/-- Less than half a step is rounded to zero. -/
theorem roundedUnits_eq_zero {numerator denominator : Nat} (h : 2 * numerator < denominator) :
    roundedUnits numerator denominator = 0 := by
  have hquotient : numerator / denominator = 0 := Nat.div_eq_of_lt (by omega)
  have hgrid : roundingGrid numerator denominator = 0 := by
    unfold roundingGrid
    rw [hquotient, Nat.log2_zero]
  have hrest : numerator % denominator = numerator := Nat.mod_eq_of_lt (by omega)
  unfold roundedUnits nearestEven
  simp only [hgrid, twoPow_zero, Nat.mul_one, hquotient, hrest, h, true_or, ↓reduceIte]

namespace Decimal

/-- The number that a decimal denotes. -/
def value (d : Decimal) : ℚ := signUnit d.negative * (d.coefficient * 10 ^ d.exponent)

theorem ratio_eq (d : Decimal) :
    ((d.ratio.1 : ℕ) : ℚ) / (d.ratio.2 * stepsPerOne) = d.coefficient * 10 ^ d.exponent := by
  have hsteps := stepsPerOne_pos_rat.ne'
  simp only [ratio, tenPow_eq_pow]
  push_cast
  rcases Int.le_total 0 d.exponent with hnonneg | hnonpos
  · obtain ⟨power, hpower⟩ := Int.eq_ofNat_of_zero_le hnonneg
    simp only [hpower, Int.toNat_natCast, zpow_natCast, Int.toNat_neg_natCast, pow_zero, one_mul]
    field_simp
  · obtain ⟨power, hpower⟩ := Int.exists_eq_neg_ofNat hnonpos
    simp only [hpower, Int.toNat_neg_natCast, pow_zero, mul_one, neg_neg, Int.toNat_natCast,
      zpow_neg, zpow_natCast]
    field_simp

theorem overflows {d : Decimal} (hcoefficient : d.coefficient ≠ 0) (h : 400 < d.exponent) :
    stepLimit ≤ roundedUnits d.ratio.1 d.ratio.2 := by
  have hdenominator : d.ratio.2 = 1 := by
    simp only [ratio, show (-d.exponent).toNat = 0 by omega, tenPow_eq_pow, pow_zero]
  have hpower : twoPow 1024 ≤ tenPow d.exponent.toNat :=
    Nat.le_trans (by decide +kernel) (tenPow_le (show 401 ≤ d.exponent.toNat by omega))
  rw [hdenominator]
  refine stepLimit_le_roundedUnits ?_
  calc
    stepLimit
    _ = 1 * twoPow 1024 * stepsPerOne := by
      rw [Nat.one_mul]
      exact twoPow_add 1024 1074
    _ ≤ d.coefficient * tenPow d.exponent.toNat * stepsPerOne :=
      Nat.mul_le_mul_right _ (Nat.mul_le_mul (Nat.one_le_iff_ne_zero.mpr hcoefficient) hpower)

theorem vanishes {d : Decimal} (h : d.exponent < -(400 + d.coefficient.log2 : Int)) :
    roundedUnits d.ratio.1 d.ratio.2 = 0 := by
  obtain ⟨power, hpower⟩ : ∃ power, (-d.exponent).toNat = power + d.coefficient.log2 :=
    ⟨(-d.exponent).toNat - d.coefficient.log2, by omega⟩
  have hten : twoPow 1076 ≤ tenPow power :=
    Nat.le_trans (by decide +kernel) (tenPow_le (show 401 ≤ power by omega))
  have hbelow := Nat.mul_lt_mul_of_pos_right (lt_twoPow_log2 d.coefficient) stepsPerOne_pos
  refine roundedUnits_eq_zero ?_
  have hnumerator : d.ratio.1 = d.coefficient * stepsPerOne := by
    simp only [ratio, show d.exponent.toNat = 0 by omega, tenPow_eq_pow, pow_zero, Nat.mul_one]
  calc
    2 * d.ratio.1
    _ < 2 * (twoPow (d.coefficient.log2 + 1) * stepsPerOne) := by
      rw [hnumerator]
      omega
    _ = twoPow 1076 * twoPow d.coefficient.log2 := by
      unfold stepsPerOne
      rw [← twoPow_add, ← twoPow_add, ← twoPow_succ]
      congr 1
      omega
    _ ≤ tenPow power * tenPow d.coefficient.log2 := Nat.mul_le_mul hten (twoPow_le_tenPow _)
    _ = d.ratio.2 := by
      simp only [ratio, hpower, tenPow_add]

theorem nearest_eq_ofRatio (d : Decimal) :
    d.nearest = .ofRatio d.negative d.ratio.1 d.ratio.2 := by
  unfold nearest
  by_cases hzero : d.coefficient = 0
  · rw [if_pos hzero]
    simp only [ratio, hzero, Nat.zero_mul, Binary64.ofRatio_zero]
  rw [if_neg hzero]
  split
  next hlarge =>
    unfold Binary64.ofRatio
    rw [dif_neg (Nat.not_lt.mpr (overflows hzero hlarge))]
  next =>
    split
    next hsmall =>
      unfold Binary64.ofRatio Binary64.signedZero Magnitude.zero
      simp only [vanishes hsmall, stepLimit_pos, ↓reduceDIte]
    next => rfl

theorem nearest_isNearest (d : Decimal) : d.nearest.IsNearest d.value := by
  have hpos : 0 < d.ratio.2 := tenPow_pos _
  rw [nearest_eq_ofRatio]
  refine .of_prevails (Binary64.ne_nan_ofRatio _ _ _) fun other hother hne => ?_
  have hprevails := Binary64.ofRatio_prevails_of_sign hpos hother hne
  rwa [ratio_eq] at hprevails

theorem hasSign_nearest (d : Decimal) : d.nearest.HasSign d.negative := by
  rw [nearest_eq_ofRatio]
  exact Binary64.hasSign_ofRatio _ _ _

end Decimal

end StochasticGrammar
