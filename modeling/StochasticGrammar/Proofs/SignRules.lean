import StochasticGrammar.Proofs.AmountRounding

namespace StochasticGrammar

theorem nearestEven_of_dvd {numerator denominator : Nat} (h : denominator ∣ numerator) :
    nearestEven numerator denominator = numerator / denominator := by
  have hrest : numerator % denominator = 0 := Nat.mod_eq_zero_of_dvd h
  unfold nearestEven
  simp only [hrest]
  split
  next => rfl
  next hup =>
    have hzero : denominator = 0 := by omega
    simp [hzero] at hup

/-- A count with at most 53 significant bits is rounded to itself. -/
theorem roundedUnits_of_dvd {units : Nat} (h : twoPow (units.log2 - 52) ∣ units) :
    roundedUnits units 1 = units := by
  have hgrid : roundingGrid units 1 = units.log2 - 52 := by
    unfold roundingGrid
    rw [Nat.div_one]
  unfold roundedUnits
  rw [hgrid, Nat.one_mul, nearestEven_of_dvd h]
  exact Nat.div_mul_cancel h

theorem roundedUnits_of_representable {units : Nat} (h : Representable units) :
    roundedUnits units 1 = units :=
  roundedUnits_of_dvd h.1

theorem roundedUnits_zero (denominator : Nat) : roundedUnits 0 denominator = 0 := by
  unfold roundedUnits
  rw [nearestEven_of_dvd (Nat.dvd_zero _), Nat.zero_div, Nat.zero_mul]

namespace Binary64

theorem natAbs_signed (negative : Bool) (units : Nat) :
    (signed negative units).natAbs = units := by
  cases negative <;> simp [signed]

theorem rank_signedZero (negative : Bool) : (signedZero negative).rank = some 0 := by
  cases negative <;> rfl

theorem ofRatio_zero (negative : Bool) (denominator : Nat) :
    ofRatio negative 0 denominator = signedZero negative := by
  unfold ofRatio signedZero Magnitude.zero
  simp only [roundedUnits_zero, stepLimit_pos, ↓reduceDIte]

/-- A finite double other than zero is found again from its place on the number line. -/
theorem ofRatio_signed {negative : Bool} {size : Magnitude} (h : signed negative size.units ≠ 0) :
    ofRatio (signed negative size.units < 0) (signed negative size.units).natAbs 1 =
      finite negative size := by
  have hsign : decide (signed negative size.units < 0) = negative := by
    cases negative with
    | false => simp [signed]
    | true =>
      simp only [signed, ↓reduceIte] at h ⊢
      exact decide_eq_true (by omega)
  have hunits := roundedUnits_of_representable size.representable
  unfold ofRatio
  rw [hsign, natAbs_signed]
  simp only [hunits, size.representable.2, ↓reduceDIte]

theorem rank_add_of_isZero {value zero : Binary64} (h : zero.IsZero) :
    (value + zero).rank = value.rank := by
  obtain ⟨t, b, rfl, hb⟩ := h.exists_eq
  change (Binary64.add _ _).rank = _
  cases value with
  | nan => rfl
  | infinite s => rfl
  | finite s a =>
    simp only [Binary64.add, hb, Int.add_zero]
    split
    next hcancel => rw [rank_signedZero, rank, hcancel]
    next hremains => rw [ofRatio_signed hremains]

theorem lt_add_iff_of_isZero {draw value zero : Binary64} (h : zero.IsZero) :
    draw < value + zero ↔ draw < value := by
  change Binary64.Less _ _ ↔ Binary64.Less _ _
  unfold Binary64.Less
  rw [rank_add_of_isZero h]

/-- A NaN is not below zero either. -/
theorem not_lt_zero_iff {value : Binary64} :
    ¬value < 0 ↔ ∀ place, value.rank = some place → 0 ≤ place := by
  constructor
  · intro h place hplace
    have hrank : value < 0 ↔ place < 0 := lt_of_rank hplace rfl
    rw [hrank] at h
    omega
  · rintro h ⟨place, zero, hplace, hzero, hless⟩
    have hnonneg := h place hplace
    obtain rfl : (0 : Int) = zero := Option.some.inj hzero
    omega

theorem not_isZero_of_pos {value : Binary64} (h : 0 < value) : ¬value.IsZero := by
  intro hzero
  have hrank : 0 < value ↔ (0 : Int) < 0 := lt_of_rank rfl hzero
  exact absurd (hrank.mp h) (Int.lt_irrefl 0)

theorem not_ofRatio_lt_zero (numerator denominator : Nat) :
    ¬ofRatio false numerator denominator < 0 := by
  refine not_lt_zero_iff.mpr fun place hplace => ?_
  unfold ofRatio at hplace
  split at hplace
  all_goals
    obtain rfl := Option.some.inj hplace
    exact Int.natCast_nonneg _

/-- What is not below zero has no negative whole part. -/
theorem floor_nonneg {value : Binary64} (h : ¬value < 0) {whole : Int}
    (hfloor : value.floor = .ok whole) : 0 ≤ whole := by
  cases value with
  | nan => cases hfloor
  | infinite negative => cases hfloor
  | finite negative size =>
    have hplace := not_lt_zero_iff.mp h _ rfl
    obtain rfl := Except.ok.inj hfloor
    exact Int.ediv_nonneg hplace (Int.natCast_nonneg stepsPerOne)

theorem IsAmount.floor_add_half_nonneg {value : Binary64} (h : value.IsAmount) {whole : Int}
    (hfloor : (value + half).floor = .ok whole) : 0 ≤ whole := by
  obtain ⟨size, hsum⟩ := h.add_half_eq
  rw [hsum] at hfloor
  exact floor_nonneg (not_ofRatio_lt_zero _ _) hfloor

/-- What a source of random numbers draws: a number from zero up to one, without one itself. -/
structure IsDraw (draw : Binary64) : Prop where
  nonneg : 0 ≤ draw
  below : draw < ofInt 1

theorem isDraw_zero : (0 : Binary64).IsDraw := ⟨by decide +kernel, by decide +kernel⟩

theorem IsDraw.isAmount {draw : Binary64} (h : draw.IsDraw) : draw.IsAmount := by
  obtain ⟨zero, place, hzero, hplace, hle⟩ := h.nonneg
  obtain rfl : (0 : Int) = zero := Option.some.inj hzero
  refine ⟨?_, not_lt_zero_iff.mpr fun other hother => ?_⟩
  · cases draw with
    | finite negative size => trivial
    | nan => cases hplace
    | infinite negative =>
      cases negative with
      | false => exact absurd h.below (by decide +kernel)
      | true => exact absurd h.nonneg (by decide +kernel)
  · obtain rfl : place = other := Option.some.inj (hplace.symm.trans hother)
    exact hle

/-- A draw that is scaled by a total is not below zero; by an infinite total it may be a NaN. -/
theorem IsDraw.not_mul_lt_zero {draw total : Binary64} (h : draw.IsDraw) (htotal : ¬total ≤ 0) :
    ¬draw * total < 0 := by
  obtain ⟨s, a, rfl, ha⟩ := h.isAmount.exists_eq
  have hsign : s = false ∨ a.units = 0 := by
    cases s with
    | false => exact .inl rfl
    | true =>
      simp only [signed, ↓reduceIte] at ha
      exact .inr (by omega)
  change ¬Binary64.mul _ _ < 0
  cases total with
  | nan => exact not_lt_zero_iff.mpr fun place hplace => by cases hplace
  | infinite t =>
    cases t with
    | true => exact absurd (by decide +kernel) htotal
    | false =>
      rcases hsign with rfl | hzero
      · simp only [Binary64.mul]
        split <;> decide +kernel
      · simp only [Binary64.mul, hzero, ↓reduceIte]
        decide +kernel
  | finite t b =>
    cases t with
    | true =>
      have hnonpos : finite true b ≤ 0 ↔ -(b.units : Int) ≤ 0 := le_of_rank rfl rfl
      exact absurd (hnonpos.mpr (by omega)) htotal
    | false =>
      rcases hsign with rfl | hzero
      · exact not_ofRatio_lt_zero _ _
      · simp only [Binary64.mul, hzero, Nat.zero_mul, ofRatio_zero]
        cases s <;> decide +kernel

end Binary64

end StochasticGrammar
