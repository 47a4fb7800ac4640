import StochasticGrammar.Proofs.RuleReading
import StochasticGrammar.Binary64.Arithmetic

namespace StochasticGrammar

theorem nearestEven_le_of_lt {numerator denominator bound : Nat} (hpos : 0 < denominator)
    (h : 2 * numerator < (2 * bound + 1) * denominator) :
    nearestEven numerator denominator ≤ bound := by
  have hsplit := Nat.div_add_mod numerator denominator
  have hwhole : numerator / denominator ≤ bound := by
    by_contra hlarge
    have hmul := Nat.mul_le_mul_left denominator (Nat.lt_of_not_le hlarge)
    rw [Nat.succ_eq_add_one, Nat.mul_add] at hmul
    rw [Nat.add_mul, Nat.mul_comm (2 * bound), ← Nat.mul_assoc, Nat.mul_comm denominator 2,
      Nat.mul_assoc] at h
    omega
  rcases Nat.lt_or_eq_of_le hwhole with hless | heq
  · exact Nat.le_trans (nearestEven_le_succ numerator denominator) hless
  · have hrest : 2 * (numerator % denominator) < denominator := by
      rw [heq] at hsplit
      rw [Nat.add_mul, Nat.mul_comm (2 * bound), ← Nat.mul_assoc, Nat.mul_comm denominator 2,
        Nat.mul_assoc] at h
      omega
    unfold nearestEven
    simp only [hrest, true_or, ↓reduceIte]
    exact hwhole

theorem stepLimit_eq : stepLimit = twoPow 53 * twoPow 2045 := twoPow_add 53 2045

/-- The largest double has 53 bits on the coarsest grid. -/
theorem Representable.le {units : Nat} (h : Representable units) :
    units ≤ (twoPow 53 - 1) * twoPow 2045 := by
  obtain ⟨hgrid, hlimit⟩ := h
  by_cases hcoarse : 2045 ≤ units.log2 - 52
  · obtain ⟨count, rfl⟩ := Nat.dvd_trans (twoPow_dvd hcoarse) hgrid
    rw [stepLimit_eq, Nat.mul_comm] at hlimit
    have hcount := Nat.lt_of_mul_lt_mul_right hlimit
    rw [Nat.mul_comm]
    exact Nat.mul_le_mul_right _ (Nat.le_sub_one_of_lt hcount)
  · have hbelow := lt_twoPow_log2 units
    have hpow : twoPow (units.log2 + 1) ≤ twoPow 52 * twoPow 2045 := by
      rw [← twoPow_add]
      exact twoPow_le (by omega)
    have hsmall : twoPow 52 ≤ twoPow 53 - 1 := by
      have hpos := twoPow_pos 52
      rw [twoPow_succ 52]
      omega
    exact Nat.le_trans (Nat.le_of_lt hbelow) (Nat.le_trans hpow (Nat.mul_le_mul_right _ hsmall))

/-- Less than half a step above the largest double is rounded down. -/
theorem roundedUnits_lt_stepLimit {units : Nat}
    (h : 2 * units < (2 * (twoPow 53 - 1) + 1) * twoPow 2045) :
    roundedUnits units 1 < stepLimit := by
  have hpos := twoPow_pos 53
  have hlimit : units < stepLimit := by
    have hle := Nat.mul_le_mul_right (twoPow 2045)
      (show 2 * (twoPow 53 - 1) + 1 ≤ 2 * twoPow 53 by omega)
    rw [Nat.mul_assoc, ← stepLimit_eq] at hle
    omega
  have hgrid : roundingGrid units 1 ≤ 2045 := by
    unfold roundingGrid
    rw [Nat.div_one]
    by_cases hzero : units = 0
    · rw [hzero]
      decide
    · have hlog := (log2_lt_iff hzero).mpr hlimit
      omega
  unfold roundedUnits
  rw [stepLimit_eq]
  rcases Nat.lt_or_eq_of_le hgrid with hfine | hcoarse
  · have hpow : twoPow 53 * twoPow (roundingGrid units 1) < twoPow 53 * twoPow 2045 := by
      have hhalf : twoPow (roundingGrid units 1) ≤ twoPow 2044 := twoPow_le (by omega)
      have hstep := twoPow_pos 2044
      refine Nat.mul_lt_mul_of_pos_left ?_ hpos
      rw [twoPow_succ 2044]
      omega
    exact Nat.lt_of_le_of_lt (Nat.mul_le_mul_right _ (rounded_significand_le units 1)) hpow
  · rw [hcoarse, Nat.one_mul]
    have hsignificand := nearestEven_le_of_lt (twoPow_pos 2045) h
    exact Nat.mul_lt_mul_of_pos_right (by omega) (twoPow_pos 2045)

namespace Binary64

theorem half_eq : half = .finite false ⟨twoPow 1073, by decide +kernel⟩ := by decide +kernel

theorem IsAmount.exists_eq {value : Binary64} (h : value.IsAmount) :
    ∃ negative size, value = .finite negative size ∧ signed negative size.units = size.units := by
  obtain ⟨hfinite, hnonneg⟩ := h
  cases value with
  | nan => exact hfinite.elim
  | infinite negative => exact hfinite.elim
  | finite negative size =>
    refine ⟨negative, size, rfl, ?_⟩
    cases negative with
    | false => rfl
    | true =>
      have hrank : (finite true size) < 0 ↔ -(size.units : Int) < 0 :=
        lt_of_rank rfl rfl
      rw [hrank] at hnonneg
      simp only [signed, ↓reduceIte]
      omega

/-- Less than half a step above the largest double is finite. -/
theorem ofRatio_isFinite {negative : Bool} {units : Nat}
    (h : 2 * units < (2 * (twoPow 53 - 1) + 1) * twoPow 2045) :
    (ofRatio negative units 1).IsFinite := by
  unfold ofRatio
  rw [dif_pos (roundedUnits_lt_stepLimit h)]
  trivial

/-- A half added to an amount is rounded from an exact sum of steps. -/
theorem IsAmount.add_half_eq {value : Binary64} (h : value.IsAmount) :
    ∃ size : Magnitude, value + half = ofRatio false (size.units + twoPow 1073) 1 := by
  obtain ⟨negative, size, rfl, hsize⟩ := h.exists_eq
  have hpos := twoPow_pos 1073
  have hsum : signed negative size.units + signed false (twoPow 1073) =
      ((size.units + twoPow 1073 : Nat) : Int) := by
    rw [hsize]
    simp [signed]
  have hsign : decide (((size.units + twoPow 1073 : Nat) : Int) < 0) = false :=
    decide_eq_false (by omega)
  refine ⟨size, ?_⟩
  rw [half_eq]
  change Binary64.add _ _ = _
  simp only [Binary64.add, hsum]
  rw [if_neg (by omega), Int.natAbs_natCast, hsign]

theorem IsAmount.add_half_isFinite {value : Binary64} (h : value.IsAmount) :
    (value + half).IsFinite := by
  obtain ⟨size, hsum⟩ := h.add_half_eq
  have hbound : 2 * (size.units + twoPow 1073) < (2 * (twoPow 53 - 1) + 1) * twoPow 2045 := by
    have hle := size.representable.le
    have hhalf : 2 * twoPow 1073 ≤ twoPow 2044 := by
      rw [← twoPow_succ]
      exact twoPow_le (by decide)
    have hgap := twoPow_pos 2044
    have hstep : twoPow 2045 = 2 * twoPow 2044 := twoPow_succ 2044
    rw [Nat.add_mul, Nat.mul_assoc, Nat.one_mul]
    omega
  rw [hsum]
  exact ofRatio_isFinite hbound

theorem IsFinite.exists_floor {value : Binary64} (h : value.IsFinite) :
    ∃ whole, value.floor = .ok whole := by
  cases value with
  | finite negative size => exact ⟨_, rfl⟩
  | nan => exact h.elim
  | infinite negative => exact h.elim

/-- The whole part of an amount is at most the amount, so it is a finite double again. -/
theorem IsAmount.ofInt_floor_isFinite {value : Binary64} (h : value.IsAmount) {whole : Int}
    (hfloor : value.floor = .ok whole) : (ofInt whole).IsFinite := by
  obtain ⟨negative, size, rfl, hsize⟩ := h.exists_eq
  simp only [floor, hsize, Except.ok.injEq] at hfloor
  have hunits : whole.natAbs * stepsPerOne ≤ size.units := by
    rw [← hfloor, ← Int.natCast_ediv, Int.natAbs_natCast]
    exact Nat.div_mul_le_self size.units stepsPerOne
  have hle := size.representable.le
  have hpos := twoPow_pos 2045
  refine ofRatio_isFinite ?_
  rw [Nat.add_mul, Nat.mul_assoc, Nat.one_mul]
  omega

theorem IsAmount.isZero_of_not_lt {value : Binary64} (h : value.IsAmount) (hzero : ¬0 < value) :
    value.IsZero := by
  obtain ⟨negative, size, rfl, hsize⟩ := h.exists_eq
  have hrank : 0 < finite negative size ↔ 0 < signed negative size.units :=
    lt_of_rank rfl rfl
  rw [hrank, hsize] at hzero
  have hunits : signed negative size.units = 0 := by omega
  exact congrArg some hunits

theorem IsZero.exists_eq {value : Binary64} (h : value.IsZero) :
    ∃ negative size, value = .finite negative size ∧ signed negative size.units = 0 := by
  cases value with
  | nan => cases h
  | infinite negative =>
    have hpos := stepLimit_pos
    have hrank : signed negative stepLimit = 0 := Option.some.inj h
    cases negative <;> simp [signed] at hrank <;> omega
  | finite negative size => exact ⟨negative, size, rfl, Option.some.inj h⟩

theorem IsZero.add {first second : Binary64} (h : first.IsZero) (h' : second.IsZero) :
    (first + second).IsZero := by
  obtain ⟨s, a, rfl, ha⟩ := h.exists_eq
  obtain ⟨t, b, rfl, hb⟩ := h'.exists_eq
  change (Binary64.add _ _).IsZero
  simp only [Binary64.add, ha, hb, Int.add_zero, ↓reduceIte]
  cases s && t <;> rfl

theorem isZero_sum {values : List Binary64} (h : ∀ value ∈ values, value.IsZero) :
    (sum values).IsZero := by
  have hfold : ∀ running : Binary64, running.IsZero → (values.foldl (· + ·) running).IsZero := by
    induction values with
    | nil => exact fun _ hrunning => hrunning
    | cons value rest ih =>
      intro running hrunning
      have hrest := ih fun other hother => h other (List.mem_cons_of_mem value hother)
      exact hrest _ (hrunning.add (h value List.mem_cons_self))
  exact hfold 0 rfl

end Binary64

end StochasticGrammar
