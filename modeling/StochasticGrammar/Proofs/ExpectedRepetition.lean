import StochasticGrammar.Proofs.FixedRepetition

namespace StochasticGrammar

section Parts

variable {units part : Nat}

/-- What lies on the grid of a double and is not larger is again a double. -/
theorem Representable.of_dvd (h : Representable units) (hle : part ≤ units)
    (hgrid : twoPow (units.log2 - 52) ∣ part) : Representable part := by
  refine ⟨Nat.dvd_trans (twoPow_dvd ?_) hgrid, Nat.lt_of_le_of_lt hle h.2⟩
  exact Nat.sub_le_sub_right (log2_mono hle) 52

/-- The grid of a double is finer than the whole numbers, or else the double is whole. -/
theorem Representable.grid_dvd_whole (h : Representable units) :
    twoPow (units.log2 - 52) ∣ units / stepsPerOne * stepsPerOne := by
  rcases Nat.le_total (units.log2 - 52) 1074 with hfine | hcoarse
  · exact Nat.dvd_trans (twoPow_dvd hfine) (Nat.dvd_mul_left _ _)
  · have hwhole : stepsPerOne ∣ units := Nat.dvd_trans (twoPow_dvd hcoarse) h.1
    rw [Nat.div_mul_cancel hwhole]
    exact h.1

theorem Representable.whole (h : Representable units) :
    Representable (units / stepsPerOne * stepsPerOne) :=
  h.of_dvd (Nat.div_mul_le_self _ _) h.grid_dvd_whole

theorem Representable.fraction (h : Representable units) : Representable (units % stepsPerOne) := by
  refine h.of_dvd (Nat.mod_le _ _) ?_
  rw [Nat.mod_eq_sub_div_mul]
  exact Nat.dvd_sub h.1 h.grid_dvd_whole

end Parts

namespace Binary64

namespace LiesAt

variable {first second count : Binary64} {a b units : Nat}

theorem sub (h : first.LiesAt a) (h' : second.LiesAt b) (hfirst : first.IsFinite)
    (hsecond : second.IsFinite) (hle : b ≤ a) :
    (first - second).LiesAt (min (roundedUnits (a - b) 1) stepLimit) := by
  change (Binary64.add _ (Binary64.neg _)).LiesAt _
  rcases h.infinite_or_finite with ⟨rfl, -⟩ | ⟨s, size, rfl, rfl⟩
  · exact hfirst.elim
  rcases h'.infinite_or_finite with ⟨rfl, -⟩ | ⟨t, size', rfl, rfl⟩
  · exact hsecond.elim
  have hminuend : signed s size.units = size.units := Option.some.inj h
  have hsubtrahend : signed t size'.units = size'.units := Option.some.inj h'
  have hdifference : (size.units : Int) + -(size'.units : Int) =
      ((size.units - size'.units : Nat) : Int) := by omega
  have hsign : decide (((size.units - size'.units : Nat) : Int) < 0) = false :=
    decide_eq_false (by omega)
  simp only [Binary64.neg, Binary64.add, signed_not, hminuend, hsubtrahend, hdifference,
    Int.natAbs_natCast, hsign]
  split
  next hzero =>
    rw [Int.natCast_eq_zero.mp hzero, roundedUnits_zero, Nat.zero_min]
    exact rank_signedZero _
  next => exact liesAt_ofRatio _ _

theorem ofInt_whole (h : Representable units) :
    (ofInt ((units / stepsPerOne : Nat) : Int)).LiesAt (units / stepsPerOne * stepsPerOne) := by
  have hplace := liesAt_ofRatio (units / stepsPerOne * stepsPerOne) 1
  rw [roundedUnits_of_representable h.whole, Nat.min_eq_left h.whole.2.le] at hplace
  have hsign : decide (((units / stepsPerOne : Nat) : Int) < 0) = false :=
    decide_eq_false (Int.not_lt.mpr (Int.natCast_nonneg _))
  unfold ofInt
  rw [hsign, Int.natAbs_natCast]
  exact hplace

theorem sub_whole (h : count.LiesAt units) (hcount : count.IsFinite)
    (hunits : Representable units) :
    (count - ofInt ((units / stepsPerOne : Nat) : Int)).LiesAt (units % stepsPerOne) := by
  have hwhole := ofInt_whole hunits
  have hfinite := hwhole.isFinite_iff.mpr hunits.whole.2
  have hdifference := h.sub hwhole hcount hfinite (Nat.div_mul_le_self _ _)
  rwa [← Nat.mod_eq_sub_div_mul, roundedUnits_of_representable hunits.fraction,
    Nat.min_eq_left hunits.fraction.2.le] at hdifference

theorem floor_exact (h : count.LiesAt units) :
    ⌊count.exact⌋ = ((units / stepsPerOne : Nat) : Int) := by
  rw [h.exact_eq, Rat.floor_natCast_div_natCast, Int.natCast_ediv]

theorem fract_exact (h : count.LiesAt units) :
    Int.fract count.exact = (units % stepsPerOne : Nat) / (stepsPerOne : ℚ) := by
  rw [h.exact_eq, Int.fract_div_natCast_eq_div_natCast_mod]

end LiesAt

/-- The whole part that is subtracted from a count leaves exactly its fraction. -/
theorem IsAmount.sub_floor {count : Binary64} (h : count.IsAmount) :
    ∃ place : Nat, (count - ofInt ⌊count.exact⌋).LiesAt place ∧
      (count - ofInt ⌊count.exact⌋).exact = Int.fract count.exact := by
  obtain ⟨size, hsize⟩ := h.exists_liesAt
  have hfraction := hsize.sub_whole h.1 size.representable
  rw [← hsize.floor_exact] at hfraction
  exact ⟨_, hfraction, by rw [hfraction.exact_eq, hsize.fract_exact]⟩

end Binary64

/-- How often a count is repeated in the mode `expected` by a draw. -/
def expectedTimes (count draw : ℚ) : Int := if draw < count - ⌊count⌋ then ⌊count⌋ + 1 else ⌊count⌋

theorem expectedTimes_of_fract_eq_zero {count draw : ℚ} (h : Int.fract count = 0)
    (hdraw : 0 ≤ draw) : expectedTimes count draw = ⌊count⌋ := by
  unfold expectedTimes
  rw [Int.self_sub_floor, h, if_neg (not_lt.mpr hdraw)]

/-- Within a whole number the fractions are in order, and past one the whole parts make up for the
draw. -/
theorem expectedTimes_mono {smaller larger draw : ℚ} (h : smaller ≤ larger) :
    expectedTimes smaller draw ≤ expectedTimes larger draw := by
  unfold expectedTimes
  rcases Int.lt_or_eq_of_le (Int.floor_mono h) with hless | hsame
  · split <;> split <;> omega
  · rw [hsame]
    split
    next hbelow => rw [if_pos (by linarith)]
    next => split <;> omega

section Runs

variable {σ : Type} [RandomSource σ] {count : Binary64}

theorem repeatCount_expected_run (h : count.IsAmount) (source : σ)
    (hdraw : (RandomSource.draw source).1.IsDraw) :
    (repeatCount .expected count).run source =
      .ok (expectedTimes count.exact (RandomSource.draw source).1.exact)
        (if Int.fract count.exact = 0 then source else (RandomSource.draw source).2) := by
  obtain ⟨part, hpart, hexact⟩ := h.sub_floor
  obtain ⟨place, hplace, -⟩ := hdraw.exists_liesAt
  have hpositive : 0 < count - Binary64.ofInt ⌊count.exact⌋ ↔ ¬Int.fract count.exact = 0 := by
    rw [Binary64.lt_iff_exact_lt Binary64.liesAt_zero hpart, hexact, Binary64.liesAt_zero.exact_eq,
      Nat.cast_zero, zero_div]
    exact (Int.fract_nonneg _).lt_iff_ne.trans ne_comm
  have hbelow : (RandomSource.draw source).1 < count - Binary64.ofInt ⌊count.exact⌋ ↔
      (RandomSource.draw source).1.exact < Int.fract count.exact := by
    rw [Binary64.lt_iff_exact_lt hplace hpart, hexact]
  have hwhole : (wholePart count : Sampling σ Int).run source = .ok ⌊count.exact⌋ source := by
    unfold wholePart
    rw [h.1.floor_eq]
    rfl
  unfold repeatCount
  simp only
  rw [run_bind_of_ok hwhole]
  simp only [hpositive]
  by_cases hzero : Int.fract count.exact = 0
  · rw [if_neg (not_not.mpr hzero), if_pos hzero,
      expectedTimes_of_fract_eq_zero hzero hdraw.isAmount.exact_nonneg]
    rfl
  · have hdrawn : (drawOne : Sampling σ Binary64).run source =
        .ok (RandomSource.draw source).1 (RandomSource.draw source).2 := rfl
    rw [if_pos hzero, if_neg hzero, run_bind_of_ok hdrawn]
    simp only [hbelow]
    rfl

/-- A larger sum with a half is rounded to no less. -/
theorem floor_add_half_mono {smaller larger : Binary64} (hsmaller : smaller.IsAmount)
    (hlarger : larger.IsAmount) (hle : smaller ≤ larger) :
    ∃ times most : Int, (smaller + .half).floor = .ok times ∧ (larger + .half).floor = .ok most ∧
      times ≤ most := by
  obtain ⟨size, hsize⟩ := hsmaller.exists_liesAt
  obtain ⟨size', hsize'⟩ := hlarger.exists_liesAt
  refine ⟨_, _, hsmaller.floor_add_half_eq hsize, hlarger.floor_add_half_eq hsize', ?_⟩
  have hunits : size.units ≤ size'.units := (hsize.le_iff hsize').mp hle
  have hrounded := roundedUnits_mono 1 (Nat.add_le_add_right hunits (twoPow 1073))
  exact Int.ofNat_le.mpr (Nat.div_le_div_right hrounded)

end Runs

/-- In the mode `expected` a count is repeated as often as its whole part, and once more if the draw
is below its fraction, both in exact arithmetic; one draw is made, and none for a whole count. In
each mode a count is repeated at most as often as a larger one for which the same draw is made. -/
theorem repeatCount_exact_and_monotone :
    (∀ count : Binary64, count.IsAmount → ∀ (σ : Type) [RandomSource σ] (source : σ),
      (RandomSource.draw source).1.IsDraw →
        (repeatCount .expected count).run source =
          .ok (expectedTimes count.exact (RandomSource.draw source).1.exact)
            (if Int.fract count.exact = 0 then source else (RandomSource.draw source).2)) ∧
    ∀ (mode : RepetitionMode) (smaller larger : Binary64), smaller.IsAmount → larger.IsAmount →
      smaller ≤ larger → ∀ (σ τ : Type) [RandomSource σ] [RandomSource τ] (source : σ) (other : τ),
        (RandomSource.draw source).1 = (RandomSource.draw other).1 →
        (RandomSource.draw source).1.IsDraw →
          ∃ times most after last, (repeatCount mode smaller).run source = .ok times after ∧
            (repeatCount mode larger).run other = .ok most last ∧ times ≤ most := by
  refine ⟨fun count hcount _ _ => repeatCount_expected_run hcount, ?_⟩
  intro mode smaller larger hsmaller hlarger hle σ τ _ _ source other hsame hdraw
  cases mode with
  | fixed =>
    obtain ⟨times, most, hfirst, hsecond, htimes⟩ := floor_add_half_mono hsmaller hlarger hle
    exact ⟨times, most, source, other, repeatCount_fixed_run hfirst source,
      repeatCount_fixed_run hsecond other, htimes⟩
  | expected =>
    have hother : (RandomSource.draw other).1.IsDraw := hsame ▸ hdraw
    refine ⟨_, _, _, _, repeatCount_expected_run hsmaller source hdraw,
      repeatCount_expected_run hlarger other hother, ?_⟩
    obtain ⟨size, hsize⟩ := hsmaller.exists_liesAt
    obtain ⟨size', hsize'⟩ := hlarger.exists_liesAt
    rw [hsame]
    exact expectedTimes_mono ((Binary64.le_iff_exact_le hsize hsize').mp hle)

/-- By the draw of a quarter, two and a half are repeated as often as three, for which no draw is
made. -/
theorem repeatCount_exact_and_monotone_of_quarter :
    let count : Binary64 := .ofRatio false (10 * twoPow 1072) 1
    let script : Script := .ofList [.ofRatio false (twoPow 1072) 1]
    count.IsAmount ∧ (RandomSource.draw script).1.IsDraw ∧ count ≤ .ofInt 3 ∧
      (repeatCount .expected count).run script = .ok 3 ⟨script.draws, 1⟩ ∧
      (repeatCount .expected (.ofInt 3)).run script = .ok 3 script ∧
      ∃ times most after last, (repeatCount .fixed count).run script = .ok times after ∧
        (repeatCount .fixed (.ofInt 3)).run script = .ok most last ∧ times ≤ most := by
  intro count script
  have hamounts : count.IsAmount ∧ (Binary64.ofInt 3).IsAmount := by
    unfold Binary64.IsAmount
    decide +kernel
  have hdraw : (RandomSource.draw script).1.IsDraw := ⟨by decide +kernel, by decide +kernel⟩
  have hle : count ≤ .ofInt 3 := by decide +kernel
  have hplaces : count.LiesAt (10 * twoPow 1072) ∧ (Binary64.ofInt 3).LiesAt (12 * twoPow 1072) ∧
      (RandomSource.draw script).1.LiesAt (twoPow 1072) := by
    unfold Binary64.LiesAt
    decide +kernel
  have hpos : ((twoPow 1072 : ℕ) : ℚ) ≠ 0 := Nat.cast_ne_zero.mpr (twoPow_pos 1072).ne'
  have hone : (stepsPerOne : ℚ) = 4 * (twoPow 1072 : ℕ) := by
    rw [← Nat.cast_ofNat, ← Nat.cast_mul, show stepsPerOne = 4 * twoPow 1072 by decide +kernel]
  have hcount : count.exact = 5 / 2 := by
    rw [hplaces.1.exact_eq, hone]
    push_cast
    field_simp
    norm_num
  have hthree : (Binary64.ofInt 3).exact = 3 := by
    rw [hplaces.2.1.exact_eq, hone]
    push_cast
    field_simp
    norm_num
  have hquarter : (RandomSource.draw script).1.exact = 1 / 4 := by
    rw [hplaces.2.2.exact_eq, hone]
    field_simp
  obtain ⟨hexpected, hmonotone⟩ := repeatCount_exact_and_monotone
  have hfirst := hexpected count hamounts.1 Script script hdraw
  have hsecond := hexpected (.ofInt 3) hamounts.2 Script script hdraw
  have hfloor : ⌊(5 / 2 : ℚ)⌋ = 2 := by norm_num
  rw [hcount, hquarter, if_neg (by norm_num [Int.fract, hfloor]), expectedTimes,
    if_pos (by rw [hfloor]; norm_num), hfloor] at hfirst
  rw [hthree, hquarter, if_pos (by norm_num), expectedTimes_of_fract_eq_zero (by norm_num)
    (by norm_num), Int.floor_ofNat] at hsecond
  exact ⟨hamounts.1, hdraw, hle, hfirst, hsecond,
    hmonotone .fixed count _ hamounts.1 hamounts.2 hle Script Script script script rfl hdraw⟩

end StochasticGrammar
