import StochasticGrammar.Proofs.ExactValue
import Mathlib.Algebra.Order.Round

namespace StochasticGrammar

theorem stepsPerOne_eq_two_mul : stepsPerOne = 2 * twoPow 1073 := twoPow_succ 1073

/-- Below a half all but the last double are at least two of its steps away. -/
theorem Representable.le_of_lt_half {units : Nat} (h : Representable units)
    (hbelow : units < twoPow 1073) (hne : units ≠ twoPow 1073 - twoPow 1020) :
    units + 2 * twoPow 1020 ≤ twoPow 1073 := by
  have hhalf : twoPow 1073 = twoPow 53 * twoPow 1020 := twoPow_add 53 1020
  by_cases hlog : units.log2 = 1072
  · obtain ⟨significand, rfl⟩ : twoPow 1020 ∣ units := by
      have hgrid := h.1
      rwa [hlog] at hgrid
    rw [Nat.mul_comm] at hbelow hne ⊢
    rw [hhalf] at hbelow hne ⊢
    have hless := Nat.lt_of_mul_lt_mul_right hbelow
    have hlast : significand ≠ twoPow 53 - 1 := by
      rintro rfl
      exact hne (by rw [Nat.sub_mul, Nat.one_mul])
    rw [← Nat.add_mul]
    exact Nat.mul_le_mul_right _ (by omega)
  · have hdouble : twoPow 1073 = 2 * twoPow 1072 := twoPow_succ 1072
    have hstep : 2 * twoPow 1020 ≤ twoPow 1072 := by
      rw [← twoPow_succ]
      exact twoPow_le (by decide)
    have hunits : units < twoPow 1072 := by
      by_contra hlarge
      exact hlog (log2_eq_of_le_of_lt (by omega) hbelow)
    omega

/-- Just below a half, the sum with a half is a tie that is rounded up to one. -/
theorem roundedUnits_last_below_half :
    roundedUnits (twoPow 1073 - twoPow 1020 + twoPow 1073) 1 = stepsPerOne := by decide +kernel

theorem roundedUnits_add_half_of_lt_half {units : Nat} (h : Representable units)
    (hbelow : units < twoPow 1073) (hne : units ≠ twoPow 1073 - twoPow 1020) :
    roundedUnits (units + twoPow 1073) 1 < stepsPerOne := by
  have hgap := h.le_of_lt_half hbelow hne
  have hone : stepsPerOne = twoPow 53 * twoPow 1021 := twoPow_add 53 1021
  have hstep : twoPow 1021 = 2 * twoPow 1020 := twoPow_succ 1020
  have hlast : (twoPow 53 - 1) * twoPow 1021 = stepsPerOne - twoPow 1021 := by
    rw [Nat.sub_mul, Nat.one_mul, hone]
  have hpos := twoPow_pos 1021
  have hlimit : stepsPerOne ≤ stepLimit := twoPow_le (by decide)
  have hle : twoPow 1021 ≤ stepsPerOne := twoPow_le (by decide)
  have hfixed : roundedUnits (stepsPerOne - twoPow 1021) 1 = stepsPerOne - twoPow 1021 := by
    rw [← hlast]
    exact roundedUnits_of_representable (representable_mul_twoPow (Nat.sub_le _ _) (by omega))
  have hmono := roundedUnits_mono 1 (show units + twoPow 1073 ≤ stepsPerOne - twoPow 1021 by
    rw [stepsPerOne_eq_two_mul] at hle ⊢
    omega)
  omega

/-- From `2 ^ 52` on doubles are whole, and adding a half to one does not change its grid. -/
theorem roundedUnits_add_half_of_large {significand grid : Nat} (hlow : twoPow 52 ≤ significand)
    (hhigh : significand < twoPow 53) (hgrid : 1074 ≤ grid) :
    roundedUnits (significand * twoPow grid + twoPow 1073) 1 =
      (if grid = 1074 ∧ significand % 2 = 1 then significand + 1 else significand) *
        twoPow grid := by
  have hhalf : 2 * twoPow 1073 ≤ twoPow grid := by
    rw [← twoPow_succ]
    exact twoPow_le hgrid
  have hpos := twoPow_pos 1073
  have hlog : (significand * twoPow grid + twoPow 1073).log2 = 52 + grid := by
    refine log2_eq_of_le_of_lt ?_ ?_
    · rw [twoPow_add]
      exact Nat.le_trans (Nat.mul_le_mul_right _ hlow) (Nat.le_add_right _ _)
    · rw [show 52 + grid + 1 = 53 + grid by omega, twoPow_add]
      have hnext := Nat.mul_le_mul_right (twoPow grid) (Nat.succ_le_of_lt hhigh)
      rw [Nat.succ_mul] at hnext
      omega
  have hround : roundingGrid (significand * twoPow grid + twoPow 1073) 1 = grid := by
    unfold roundingGrid
    rw [Nat.div_one, hlog]
    omega
  have hwhole : (significand * twoPow grid + twoPow 1073) / twoPow grid = significand := by
    rw [Nat.add_comm, Nat.add_mul_div_right _ _ (twoPow_pos grid), Nat.div_eq_of_lt (by omega),
      Nat.zero_add]
  have hrest : (significand * twoPow grid + twoPow 1073) % twoPow grid = twoPow 1073 := by
    rw [Nat.add_comm, Nat.add_mul_mod_self_right, Nat.mod_eq_of_lt (by omega)]
  have htie : 2 * twoPow 1073 = twoPow grid ↔ grid = 1074 := by
    rw [← twoPow_succ]
    constructor
    · intro h
      have hlogs := congrArg Nat.log2 h
      rw [log2_twoPow, log2_twoPow] at hlogs
      omega
    · rintro rfl
      rfl
  unfold roundedUnits
  rw [hround, Nat.one_mul]
  congr 1
  unfold nearestEven
  simp only [hwhole, hrest, htie]
  by_cases hcoarse : grid = 1074
  · have heq := htie.mpr hcoarse
    subst hcoarse
    simp only [true_and]
    split <;> split <;> omega
  · have hless : 2 * twoPow 1073 < twoPow grid := by
      have hne := mt htie.mp hcoarse
      omega
    simp [hless, hcoarse]

section Below

variable {units whole : Nat}

theorem roundedUnits_mul_stepsPerOne (h : whole ≤ twoPow 53) :
    roundedUnits (whole * stepsPerOne) 1 = whole * stepsPerOne := by
  refine roundedUnits_of_representable (representable_mul_twoPow h ?_)
  calc
    whole * twoPow 1074
    _ ≤ twoPow 53 * twoPow 1074 := Nat.mul_le_mul_right _ h
    _ = twoPow 1127 := (twoPow_add 53 1074).symm
    _ < stepLimit := by decide +kernel

/-- A sum with a half that passes no whole number is not rounded. -/
theorem roundedUnits_add_half_of_le (h : Representable units)
    (hhigh : units < twoPow 52 * stepsPerOne) (hlow : twoPow 1073 ≤ units)
    (hbelow : whole * stepsPerOne ≤ units)
    (habove : units + twoPow 1073 < (whole + 1) * stepsPerOne) :
    roundedUnits (units + twoPow 1073) 1 = units + twoPow 1073 := by
  have hpos := twoPow_pos 1073
  have hstart := twoPow_log2_le (by omega : units ≠ 0)
  have hend := lt_twoPow_log2 units
  have hlog : 1073 ≤ units.log2 := le_log2_of_twoPow_le hlow
  have hgrid : units.log2 < 1126 := (log2_lt_iff (by omega)).mpr (by
    rwa [show (1126 : Nat) = 52 + 1074 from rfl, twoPow_add])
  have hsplit : twoPow (units.log2 + 1) = twoPow (units.log2 + 1 - 1074) * stepsPerOne := by
    unfold stepsPerOne
    rw [← twoPow_add]
    congr 1
    omega
  have hnext : (whole + 1) * stepsPerOne ≤ twoPow (units.log2 + 1) := by
    rw [hsplit] at hend ⊢
    exact Nat.mul_le_mul_right _ (Nat.lt_of_mul_lt_mul_right (Nat.lt_of_le_of_lt hbelow hend))
  have hsame : (units + twoPow 1073).log2 = units.log2 :=
    log2_eq_of_le_of_lt (by omega) (by omega)
  refine roundedUnits_of_dvd ?_
  rw [hsame]
  exact Nat.dvd_add h.1 (twoPow_dvd (by omega))

/-- A sum with a half that passes a whole number is rounded to less than a half above it. -/
theorem roundedUnits_add_half_of_lt (hbits : whole ≤ twoPow 52)
    (hpassed : units < whole * stepsPerOne) (hreached : whole * stepsPerOne ≤ units + twoPow 1073) :
    whole * stepsPerOne ≤ roundedUnits (units + twoPow 1073) 1 ∧
      roundedUnits (units + twoPow 1073) 1 < (whole + 1) * stepsPerOne := by
  have hone := stepsPerOne_eq_two_mul
  have hpos := twoPow_pos 1073
  have hmore : twoPow 53 = 2 * twoPow 52 := twoPow_succ 52
  constructor
  · have hmono := roundedUnits_mono 1 hreached
    rwa [roundedUnits_mul_stepsPerOne (by omega)] at hmono
  · refine Nat.lt_of_le_of_lt (roundedUnits_mono 1 (Nat.add_le_add_right hpassed.le _)) ?_
    rcases Nat.lt_or_eq_of_le hbits with hless | rfl
    · have hodd : whole * stepsPerOne + twoPow 1073 = (2 * whole + 1) * twoPow 1073 := by
        rw [hone, Nat.add_mul, Nat.one_mul, Nat.mul_left_comm, Nat.mul_assoc]
      have hlimit : (2 * whole + 1) * twoPow 1073 < stepLimit := by
        calc
          (2 * whole + 1) * twoPow 1073
          _ ≤ twoPow 53 * twoPow 1073 := Nat.mul_le_mul_right _ (by omega)
          _ = twoPow 1126 := (twoPow_add 53 1073).symm
          _ < stepLimit := by decide +kernel
      rw [hodd, roundedUnits_of_representable (representable_mul_twoPow (by omega) hlimit), ← hodd,
        Nat.add_mul, Nat.one_mul]
      omega
    · have heven : twoPow 52 % 2 = 0 := by decide +kernel
      have hsmall := twoPow_pos 52
      have htie : roundedUnits (twoPow 52 * stepsPerOne + twoPow 1073) 1 =
          (if 1074 = 1074 ∧ twoPow 52 % 2 = 1 then twoPow 52 + 1 else twoPow 52) * stepsPerOne :=
        roundedUnits_add_half_of_large (Nat.le_refl _) (by omega) (Nat.le_refl 1074)
      rw [htie, if_neg (by omega)]
      exact Nat.mul_lt_mul_of_pos_right (Nat.lt_succ_self _) stepsPerOne_pos

/-- Below `2 ^ 52` the sum may be rounded, but not past a whole number. -/
theorem whole_roundedUnits_add_half (h : Representable units) (hlow : twoPow 1073 ≤ units)
    (hhigh : units < twoPow 52 * stepsPerOne) :
    roundedUnits (units + twoPow 1073) 1 / stepsPerOne =
      (units + twoPow 1073) / stepsPerOne := by
  obtain ⟨whole, hwhole⟩ : ∃ whole, (units + twoPow 1073) / stepsPerOne = whole := ⟨_, rfl⟩
  have hone := stepsPerOne_eq_two_mul
  have hpos := twoPow_pos 1073
  have hreached : whole * stepsPerOne ≤ units + twoPow 1073 := hwhole ▸ Nat.div_mul_le_self _ _
  have habove : units + twoPow 1073 < (whole + 1) * stepsPerOne :=
    Nat.lt_mul_of_div_lt (by omega) stepsPerOne_pos
  have hbits : whole ≤ twoPow 52 := by
    refine Nat.le_of_lt_succ (Nat.lt_of_mul_lt_mul_right (a := stepsPerOne) ?_)
    rw [Nat.succ_mul]
    omega
  rw [hwhole]
  by_cases hbelow : whole * stepsPerOne ≤ units
  · rw [roundedUnits_add_half_of_le h hhigh hlow hbelow habove, hwhole]
  · obtain ⟨hfrom, hto⟩ := roundedUnits_add_half_of_lt hbits (Nat.lt_of_not_le hbelow) hreached
    exact Nat.div_eq_of_lt_le hfrom hto

end Below

/-- From `2 ^ 52` on a double is a significand of 53 bits on a grid of whole numbers. -/
theorem Representable.exists_significand {units : Nat} (h : Representable units)
    (hlarge : twoPow 52 * stepsPerOne ≤ units) :
    ∃ significand grid, units = significand * twoPow grid ∧ twoPow 52 ≤ significand ∧
      significand < twoPow 53 ∧ 1074 ≤ grid := by
  have hpos := twoPow_pos 1126
  have hstart : twoPow 1126 ≤ units := by
    rwa [show (1126 : Nat) = 52 + 1074 from rfl, twoPow_add]
  have hlog : 1126 ≤ units.log2 := le_log2_of_twoPow_le hstart
  obtain ⟨grid, hgrid⟩ : ∃ grid, units.log2 = 52 + grid := ⟨units.log2 - 52, by omega⟩
  have hlow := twoPow_log2_le (by omega : units ≠ 0)
  have hhigh := lt_twoPow_log2 units
  obtain ⟨significand, hunits⟩ : twoPow grid ∣ units := by
    have hdvd := h.1
    rwa [hgrid, Nat.add_sub_cancel_left] at hdvd
  rw [Nat.mul_comm] at hunits
  rw [hgrid, hunits, twoPow_add] at hlow
  rw [hgrid, hunits, show 52 + grid + 1 = 53 + grid by omega, twoPow_add] at hhigh
  exact ⟨significand, grid, hunits, Nat.le_of_mul_le_mul_right hlow (twoPow_pos grid),
    Nat.lt_of_mul_lt_mul_right hhigh, by omega⟩

/-- The counts of steps whose sum with a half is rounded up to the next whole number. -/
def CarriesHalf (units : Nat) : Prop :=
  units = twoPow 1073 - twoPow 1020 ∨
    ∃ whole, whole % 2 = 1 ∧ twoPow 52 ≤ whole ∧ whole < twoPow 53 ∧ units = whole * stepsPerOne

/-- Whole numbers in front of which a half is added are found again. -/
theorem mul_add_half_div (whole : Nat) :
    (whole * stepsPerOne + twoPow 1073) / stepsPerOne = whole := by
  have hone := stepsPerOne_eq_two_mul
  have hpos := twoPow_pos 1073
  rw [Nat.add_comm, Nat.add_mul_div_right _ _ stepsPerOne_pos, Nat.div_eq_of_lt (by omega),
    Nat.zero_add]

theorem Representable.whole_add_half {units : Nat} (h : Representable units) :
    (¬CarriesHalf units → roundedUnits (units + twoPow 1073) 1 / stepsPerOne =
      (units + twoPow 1073) / stepsPerOne) ∧
    (CarriesHalf units → roundedUnits (units + twoPow 1073) 1 / stepsPerOne =
      (units + twoPow 1073) / stepsPerOne + 1) := by
  have hone := stepsPerOne_eq_two_mul
  have hpos := twoPow_pos 1073
  refine ⟨fun hexact => ?_, ?_⟩
  · rcases Nat.lt_or_ge units (twoPow 1073) with hbelow | hlow
    · have hrounded := roundedUnits_add_half_of_lt_half h hbelow fun heq => hexact (.inl heq)
      rw [Nat.div_eq_of_lt hrounded, Nat.div_eq_of_lt (by omega)]
    rcases Nat.lt_or_ge units (twoPow 52 * stepsPerOne) with hmiddle | hlarge
    · exact whole_roundedUnits_add_half h hlow hmiddle
    obtain ⟨significand, grid, rfl, hmin, hmax, hgrid⟩ := h.exists_significand hlarge
    have hfixed : ¬(grid = 1074 ∧ significand % 2 = 1) := by
      rintro ⟨rfl, hodd⟩
      exact hexact (.inr ⟨significand, hodd, hmin, hmax, rfl⟩)
    have hwhole : significand * twoPow grid =
        significand * twoPow (grid - 1074) * stepsPerOne := by
      unfold stepsPerOne
      rw [Nat.mul_assoc, ← twoPow_add, Nat.sub_add_cancel hgrid]
    rw [roundedUnits_add_half_of_large hmin hmax hgrid, if_neg hfixed, hwhole, mul_add_half_div,
      Nat.mul_div_cancel _ stepsPerOne_pos]
  · rintro (rfl | ⟨whole, hodd, hmin, hmax, rfl⟩)
    · rw [roundedUnits_last_below_half, Nat.div_self stepsPerOne_pos]
      have hless : twoPow 1073 - twoPow 1020 + twoPow 1073 < stepsPerOne := by decide +kernel
      rw [Nat.div_eq_of_lt hless]
    · have htie := roundedUnits_add_half_of_large hmin hmax (Nat.le_refl 1074)
      rw [if_pos ⟨rfl, hodd⟩] at htie
      rw [mul_add_half_div]
      exact (congrArg (· / stepsPerOne) htie).trans (Nat.mul_div_cancel _ stepsPerOne_pos)

end StochasticGrammar
