import StochasticGrammar.Proofs.ExactValue

namespace StochasticGrammar

/-- How far a place is from a ratio, multiplied by the denominator. -/
def distance (numerator denominator place : Nat) : Nat :=
  (numerator - place * denominator) + (place * denominator - numerator)

/-- One place is nearer to a ratio than another, or as near if it is even and the other is odd. -/
def Precedes (isEven : Nat → Prop) (numerator denominator first second : Nat) : Prop :=
  distance numerator denominator first < distance numerator denominator second ∨
    (distance numerator denominator first = distance numerator denominator second ∧
      isEven first ∧ ¬isEven second)

theorem nearestEven_cases (numerator denominator : Nat) :
    (nearestEven numerator denominator = numerator / denominator ∧
      2 * (numerator % denominator) ≤ denominator ∧
      (2 * (numerator % denominator) = denominator → numerator / denominator % 2 = 0)) ∨
    (nearestEven numerator denominator = numerator / denominator + 1 ∧
      denominator ≤ 2 * (numerator % denominator) ∧
      (2 * (numerator % denominator) = denominator → numerator / denominator % 2 = 1)) := by
  unfold nearestEven
  dsimp only
  split
  next hdown => exact .inl ⟨rfl, by omega, by omega⟩
  next hup => exact .inr ⟨rfl, by omega, by omega⟩

/-- A multiple is one of the two neighbours or at least another step away. -/
theorem mul_cases (whole below denominator : Nat) :
    whole * denominator + denominator ≤ below * denominator ∨ whole = below ∨ whole = below + 1 ∨
      below * denominator + 2 * denominator ≤ whole * denominator := by
  rcases Nat.lt_or_ge whole below with hless | hge
  · have hproduct := Nat.mul_le_mul_right denominator (Nat.succ_le_of_lt hless)
    rw [Nat.succ_mul] at hproduct
    exact .inl hproduct
  · rcases Nat.lt_or_ge (below + 1) whole with hmore | hnext
    · have hproduct := Nat.mul_le_mul_right denominator (Nat.succ_le_of_lt hmore)
      rw [Nat.succ_mul, Nat.succ_mul] at hproduct
      exact .inr (.inr (.inr (by omega)))
    · exact .inr (by omega)

theorem nearestEven_precedes {numerator denominator whole : Nat} (h : 0 < denominator)
    (hne : whole ≠ nearestEven numerator denominator) :
    Precedes (· % 2 = 0) numerator denominator (nearestEven numerator denominator) whole := by
  have hsplit := Nat.div_add_mod numerator denominator
  have hrest := Nat.mod_lt numerator h
  have hplace := mul_cases whole (numerator / denominator) denominator
  have hnext := Nat.add_one_mul (numerator / denominator) denominator
  rw [Nat.mul_comm] at hsplit
  unfold Precedes distance
  rcases nearestEven_cases numerator denominator with ⟨heq, hhalf, htie⟩ | ⟨heq, hhalf, htie⟩
  · rw [heq] at hne ⊢
    rcases hplace with hbefore | rfl | rfl | hafter
    · omega
    · exact absurd rfl hne
    · omega
    · omega
  · rw [heq] at hne ⊢
    rcases hplace with hbefore | rfl | rfl | hafter
    · omega
    · omega
    · exact absurd rfl hne
    · omega

theorem distance_nearestEven_le {numerator denominator : Nat} (h : 0 < denominator) (whole : Nat) :
    distance numerator denominator (nearestEven numerator denominator) ≤
      distance numerator denominator whole := by
  by_cases hne : whole = nearestEven numerator denominator
  · rw [hne]
  · rcases nearestEven_precedes h hne with hless | ⟨heq, -⟩
    · exact hless.le
    · exact heq.le

theorem distance_mul_twoPow (numerator denominator whole grid : Nat) :
    distance numerator denominator (whole * twoPow grid) =
      distance numerator (denominator * twoPow grid) whole := by
  unfold distance
  rw [Nat.mul_assoc, Nat.mul_comm (twoPow grid)]

/-- The significand of 53 bits, or fewer for a subnormal, is even. -/
def HasEvenSignificand (units : Nat) : Prop := units / twoPow (units.log2 - 52) % 2 = 0

theorem hasEvenSignificand_mul_twoPow {significand grid : Nat} (heven : significand % 2 = 0)
    (hbits : significand ≤ twoPow 53) : HasEvenSignificand (significand * twoPow grid) := by
  have hpos := twoPow_pos grid
  unfold HasEvenSignificand
  by_cases hzero : significand = 0
  · rw [hzero, Nat.zero_mul, Nat.zero_div]
  have hbelow : significand * twoPow grid < twoPow (54 + grid) := by
    have hfull := twoPow_pos 53
    rw [twoPow_add, twoPow_succ 53]
    exact Nat.mul_lt_mul_of_pos_right (by omega) hpos
  have hlog := (log2_lt_iff (Nat.mul_ne_zero hzero hpos.ne')).mpr hbelow
  by_cases hfine : (significand * twoPow grid).log2 - 52 ≤ grid
  · have hsplit : twoPow grid = twoPow (grid - ((significand * twoPow grid).log2 - 52)) *
        twoPow ((significand * twoPow grid).log2 - 52) := by
      rw [← twoPow_add, Nat.sub_add_cancel hfine]
    rw [Nat.div_eq_of_eq_mul_left (twoPow_pos _) ((congrArg (significand * ·) hsplit).trans
      (Nat.mul_assoc _ _ _).symm), Nat.mul_mod, heven, Nat.zero_mul, Nat.zero_mod]
  · -- rounding has carried into the next binade, whose first significand is `2 ^ 52`
    have hcarry : (significand * twoPow grid).log2 = 53 + grid := by omega
    have hstart := twoPow_log2_le (Nat.mul_ne_zero hzero hpos.ne')
    rw [hcarry, twoPow_add] at hstart
    have hfull : significand = twoPow 53 :=
      Nat.le_antisymm hbits (Nat.le_of_mul_le_mul_right hstart hpos)
    have hsignificand : twoPow 53 * twoPow grid = twoPow 52 * twoPow (53 + grid - 52) := by
      rw [← twoPow_add, ← twoPow_add]
      congr 1
      omega
    rw [hcarry, hfull, hsignificand, Nat.mul_div_cancel _ (twoPow_pos _)]
    decide +kernel

theorem not_hasEvenSignificand_mul_twoPow {significand grid : Nat} (hodd : ¬significand % 2 = 0)
    (hgrid : twoPow ((significand * twoPow grid).log2 - 52) ∣ significand * twoPow grid)
    (hcoarse : grid ≤ (significand * twoPow grid).log2 - 52) :
    ¬HasEvenSignificand (significand * twoPow grid) := by
  have hsame : (significand * twoPow grid).log2 - 52 = grid := by
    refine Nat.le_antisymm (Nat.le_of_not_lt fun hmore => ?_) hcoarse
    have hnext := Nat.dvd_trans (twoPow_dvd (Nat.succ_le_of_lt hmore)) hgrid
    rw [Nat.succ_eq_add_one, twoPow_succ] at hnext
    have htwo := Nat.dvd_of_mul_dvd_mul_right (twoPow_pos grid) hnext
    exact hodd (Nat.mod_eq_zero_of_dvd htwo)
  unfold HasEvenSignificand
  rwa [hsame, Nat.mul_div_cancel _ (twoPow_pos grid)]

/-- A rounded ratio is nearer than every place on its own grid, of whatever size; of two that are
equally near the significand decides. -/
theorem roundedUnits_precedes {numerator denominator units : Nat} (h : 0 < denominator)
    (hunits : twoPow (units.log2 - 52) ∣ units) (hne : units ≠ roundedUnits numerator denominator) :
    Precedes HasEvenSignificand numerator denominator (roundedUnits numerator denominator)
      units := by
  have hbits := rounded_significand_le numerator denominator
  obtain ⟨grid, hgrid⟩ : ∃ grid, roundingGrid numerator denominator = grid := ⟨_, rfl⟩
  have hscaled : 0 < denominator * twoPow grid := Nat.mul_pos h (twoPow_pos grid)
  have hrounded : distance numerator denominator (roundedUnits numerator denominator) =
      distance numerator (denominator * twoPow grid)
        (nearestEven numerator (denominator * twoPow grid)) := by
    unfold roundedUnits
    rw [hgrid, distance_mul_twoPow]
  unfold roundedUnits at hne
  rw [hgrid] at hbits hne
  rcases Nat.lt_or_ge (units.log2 - 52) grid with hfine | hcoarse
  · have hlog : (numerator / denominator).log2 = 52 + grid := by
      unfold roundingGrid at hgrid
      omega
    have hstart : twoPow 52 * twoPow grid * denominator ≤ numerator := by
      rw [← twoPow_add, ← hlog]
      refine (Nat.le_div_iff_mul_le h).mp (twoPow_log2_le fun hzero => ?_)
      rw [hzero, Nat.log2_zero] at hlog
      omega
    have hbelow : units < twoPow 52 * twoPow grid := by
      rw [← twoPow_add]
      exact Nat.lt_of_lt_of_le (lt_twoPow_log2 units) (twoPow_le (by omega))
    have hless := Nat.mul_lt_mul_of_pos_right hbelow h
    have hnearest : distance numerator (denominator * twoPow grid) _ ≤ _ :=
      distance_nearestEven_le hscaled (twoPow 52)
    rw [← distance_mul_twoPow numerator denominator (twoPow 52) grid] at hnearest
    unfold Precedes
    rw [hrounded]
    unfold distance at hnearest ⊢
    omega
  · obtain ⟨whole, rfl⟩ : ∃ whole, units = whole * twoPow grid :=
      (Nat.dvd_trans (twoPow_dvd hcoarse) hunits).imp fun _ heq => heq.trans (Nat.mul_comm _ _)
    have hwhole : whole ≠ nearestEven numerator (denominator * twoPow grid) := by
      rintro rfl
      exact hne rfl
    unfold Precedes
    rw [hrounded, distance_mul_twoPow]
    refine (nearestEven_precedes hscaled hwhole).imp id fun ⟨htie, heven, hodd⟩ => ⟨htie, ?_, ?_⟩
    · unfold roundedUnits
      rw [hgrid]
      exact hasEvenSignificand_mul_twoPow heven hbits
    · exact not_hasEvenSignificand_mul_twoPow hodd hunits hcoarse

theorem grid_dvd_stepLimit : twoPow (stepLimit.log2 - 52) ∣ stepLimit := by
  unfold stepLimit
  rw [log2_twoPow]
  exact twoPow_dvd (by decide)

/-- The ratio that overflows is nearest to the limit, which stands for infinity. -/
theorem min_roundedUnits_precedes {numerator denominator units : Nat} (h : 0 < denominator)
    (hunits : twoPow (units.log2 - 52) ∣ units) (hle : units ≤ stepLimit)
    (hne : units ≠ min (roundedUnits numerator denominator) stepLimit) :
    Precedes HasEvenSignificand numerator denominator
      (min (roundedUnits numerator denominator) stepLimit) units := by
  rcases Nat.lt_or_ge stepLimit (roundedUnits numerator denominator) with habove | hbelow
  · rw [Nat.min_eq_right habove.le] at hne ⊢
    have hnearest := roundedUnits_precedes h grid_dvd_stepLimit habove.ne
    have hfirst := Nat.mul_lt_mul_of_pos_right (Nat.lt_of_le_of_ne hle hne) h
    have hsecond := Nat.mul_lt_mul_of_pos_right habove h
    unfold Precedes distance at hnearest ⊢
    omega
  · rw [Nat.min_eq_left hbelow] at hne ⊢
    exact roundedUnits_precedes h hunits hne

namespace Binary64

/-- The significand is even; that of the place where an infinity stands is. -/
def IsEven (value : Binary64) : Prop :=
  ∃ place, value.rank = some place ∧ HasEvenSignificand place.natAbs

/-- Among all doubles the value is nearest to the number, and it is even if another one is as
near. -/
structure IsNearest (value : Binary64) (number : ℚ) : Prop where
  ne_nan : value ≠ nan
  closest : ∀ other : Binary64, other ≠ nan → |number - value.exact| ≤ |number - other.exact|
  even : ∀ other : Binary64, other ≠ nan → other.exact ≠ value.exact →
    |number - value.exact| = |number - other.exact| → value.IsEven

/-- The value is nearer to the number than the other, or as near if it is even and the other odd. -/
def Prevails (number : ℚ) (value other : Binary64) : Prop :=
  |number - value.exact| < |number - other.exact| ∨
    (|number - value.exact| = |number - other.exact| ∧ value.IsEven ∧ ¬other.IsEven)

theorem exists_rank {value : Binary64} (h : value ≠ nan) : ∃ place, value.rank = some place := by
  cases value with
  | nan => exact absurd rfl h
  | infinite negative => exact ⟨_, rfl⟩
  | finite negative size => exact ⟨_, rfl⟩

namespace LiesAt

variable {value other : Binary64} {place units : Nat}

theorem dvd (h : value.LiesAt place) : twoPow (place.log2 - 52) ∣ place := by
  rcases h.infinite_or_finite with ⟨-, rfl⟩ | ⟨negative, size, -, rfl⟩
  · exact grid_dvd_stepLimit
  · exact size.representable.1

theorem isEven_iff (h : value.LiesAt place) : value.IsEven ↔ HasEvenSignificand place := by
  constructor
  · rintro ⟨other, hother, heven⟩
    obtain rfl := Option.some.inj (h.symm.trans hother)
    exact heven
  · exact fun heven => ⟨place, h, heven⟩

theorem abs_sub_eq (h : value.LiesAt place) {numerator denominator : Nat} (hpos : 0 < denominator) :
    |numerator / (denominator * stepsPerOne : ℚ) - value.exact| =
      distance numerator denominator place / (denominator * stepsPerOne : ℚ) := by
  have hsteps := stepsPerOne_pos_rat
  have hcast : (0 : ℚ) < denominator := Nat.cast_pos.mpr hpos
  have hsplit : numerator / (denominator * stepsPerOne : ℚ) - value.exact =
      (numerator - (place * denominator : Nat)) / (denominator * stepsPerOne : ℚ) := by
    rw [h.exact_eq]
    push_cast
    field_simp
  rw [hsplit, abs_div, abs_of_pos (mul_pos hcast hsteps)]
  congr 1
  unfold distance
  rcases Nat.le_total numerator (place * denominator) with hle | hge
  · rw [Nat.sub_eq_zero_of_le hle, Nat.zero_add, Nat.cast_sub hle, abs_sub_comm,
      abs_of_nonneg (sub_nonneg.mpr (Nat.cast_le.mpr hle))]
  · rw [Nat.sub_eq_zero_of_le hge, Nat.add_zero, Nat.cast_sub hge,
      abs_of_nonneg (sub_nonneg.mpr (Nat.cast_le.mpr hge))]

theorem prevails (h : value.LiesAt place) (h' : other.LiesAt units) {numerator denominator : Nat}
    (hpos : 0 < denominator)
    (hprecedes : Precedes HasEvenSignificand numerator denominator place units) :
    Prevails (numerator / (denominator * stepsPerOne : ℚ)) value other := by
  have hscale : (0 : ℚ) < denominator * stepsPerOne :=
    mul_pos (Nat.cast_pos.mpr hpos) stepsPerOne_pos_rat
  unfold Prevails
  rw [h.abs_sub_eq hpos, h'.abs_sub_eq hpos, h.isEven_iff, h'.isEven_iff,
    div_lt_div_iff_of_pos_right hscale, div_left_inj' hscale.ne', Nat.cast_lt, Nat.cast_inj]
  exact hprecedes

end LiesAt

theorem Prevails.le {number : ℚ} {value other : Binary64} (h : Prevails number value other) :
    |number - value.exact| ≤ |number - other.exact| := by
  rcases h with hless | ⟨heq, -⟩
  · exact hless.le
  · exact heq.le

/-- A ratio that is not negative is rounded to the nearest double. -/
theorem ofRatio_prevails {numerator denominator : Nat} (h : 0 < denominator) {other : Binary64}
    (hother : other ≠ nan) (hne : other.exact ≠ (ofRatio false numerator denominator).exact) :
    Prevails (numerator / (denominator * stepsPerOne : ℚ)) (ofRatio false numerator denominator)
      other := by
  have hvalue := liesAt_ofRatio numerator denominator
  have hplaced : ∀ {other : Binary64} {units : Nat}, other.LiesAt units →
      other.exact ≠ (ofRatio false numerator denominator).exact →
      Prevails (numerator / (denominator * stepsPerOne : ℚ)) (ofRatio false numerator denominator)
        other := by
    intro other units hlies hne
    refine hvalue.prevails hlies h (min_roundedUnits_precedes h hlies.dvd hlies.le_stepLimit ?_)
    rintro rfl
    exact hne (hlies.exact_eq.trans hvalue.exact_eq.symm)
  obtain ⟨place, hplace⟩ := exists_rank hother
  rcases lt_or_ge place 0 with hnegative | hnonneg
  · have hzero : (0 : Binary64).exact = 0 := by
      rw [liesAt_zero.exact_eq, Nat.cast_zero, zero_div]
    have hnumber : (0 : ℚ) ≤ numerator / (denominator * stepsPerOne : ℚ) := by positivity
    have hbelow : other.exact < 0 := by
      rw [exact_of_rank hplace]
      exact div_neg_of_neg_of_pos (Int.cast_lt_zero.mpr hnegative) stepsPerOne_pos_rat
    have hclose : |numerator / (denominator * stepsPerOne : ℚ) -
        (ofRatio false numerator denominator).exact| ≤
          |numerator / (denominator * stepsPerOne : ℚ) - (0 : Binary64).exact| := by
      by_cases hsame : (0 : Binary64).exact = (ofRatio false numerator denominator).exact
      · rw [hsame]
      · exact (hplaced liesAt_zero hsame).le
    rw [hzero, sub_zero, abs_of_nonneg hnumber] at hclose
    refine .inl (lt_of_le_of_lt hclose ?_)
    rw [abs_of_nonneg (by linarith)]
    linarith
  · obtain ⟨units, rfl⟩ := Int.eq_ofNat_of_zero_le hnonneg
    exact hplaced hplace hne

theorem neg_neg_eq (value : Binary64) : - -value = value := by
  change Binary64.neg (Binary64.neg value) = value
  cases value <;> simp [Binary64.neg]

theorem isEven_neg_iff {value : Binary64} : (-value).IsEven ↔ value.IsEven := by
  have hmirror : ∀ {value : Binary64}, value.IsEven → (-value).IsEven := by
    rintro value ⟨place, hplace, heven⟩
    exact ⟨-place, rank_neg hplace, by rwa [Int.natAbs_neg]⟩
  exact ⟨fun heven => neg_neg_eq value ▸ hmirror heven, hmirror⟩

theorem ne_nan_neg {value : Binary64} (h : value ≠ nan) : -value ≠ nan := by
  intro hneg
  exact h ((neg_neg_eq value).symm.trans (congrArg Neg.neg hneg))

theorem Prevails.neg {number : ℚ} {value other : Binary64} (h : Prevails number value other) :
    Prevails (-number) (-value) (-other) := by
  have hmirror : ∀ value : Binary64, |-number - (-value).exact| = |number - value.exact| := by
    intro value
    rw [exact_neg, neg_sub_neg, abs_sub_comm]
  unfold Prevails
  rwa [hmirror, hmirror, isEven_neg_iff, isEven_neg_iff]

theorem ofRatio_true (numerator denominator : Nat) :
    ofRatio true numerator denominator = -ofRatio false numerator denominator := by
  unfold ofRatio
  split <;> rfl

theorem ofRatio_prevails_of_sign {negative : Bool} {numerator denominator : Nat}
    (h : 0 < denominator) {other : Binary64} (hother : other ≠ nan)
    (hne : other.exact ≠ (ofRatio negative numerator denominator).exact) :
    Prevails (signUnit negative * (numerator / (denominator * stepsPerOne)))
      (ofRatio negative numerator denominator) other := by
  cases negative with
  | false =>
    rw [signUnit, if_neg Bool.false_ne_true, one_mul]
    exact ofRatio_prevails h hother hne
  | true =>
    rw [ofRatio_true] at hne ⊢
    rw [signUnit, if_pos rfl, neg_one_mul, ← neg_neg_eq other]
    refine (ofRatio_prevails h (ne_nan_neg hother) fun heq => hne ?_).neg
    rw [exact_neg, ← heq, exact_neg, neg_neg]

theorem ne_nan_ofRatio (negative : Bool) (numerator denominator : Nat) :
    ofRatio negative numerator denominator ≠ nan := by
  unfold ofRatio
  split <;> simp

/-- Every number is rounded to a double that prevails over all other places. -/
theorem exists_prevails (number : ℚ) : ∃ value : Binary64, value ≠ nan ∧
    ∀ other : Binary64, other ≠ nan → other.exact ≠ value.exact → Prevails number value other := by
  have hratio : number = signUnit (decide (number < 0)) *
      (((number.num.natAbs * stepsPerOne : Nat) : ℚ) / (number.den * stepsPerOne)) := by
    have habs : ((number.num.natAbs : Nat) : ℚ) / number.den = |number| := by
      have hden : (0 : ℚ) < number.den := Nat.cast_pos.mpr number.den_pos
      conv_rhs => rw [← Rat.num_div_den number, abs_div, abs_of_pos hden]
      rw [Nat.cast_natAbs, Int.cast_abs]
    rw [Nat.cast_mul, mul_div_mul_right _ _ stepsPerOne_pos_rat.ne', habs, signUnit]
    by_cases hnegative : number < 0
    · rw [if_pos (decide_eq_true hnegative), abs_of_neg hnegative, neg_one_mul, neg_neg]
    · rw [if_neg (by simpa using hnegative), abs_of_nonneg (not_lt.mp hnegative), one_mul]
  refine ⟨ofRatio (decide (number < 0)) (number.num.natAbs * stepsPerOne) number.den,
    ne_nan_ofRatio _ _ _, fun other hother hne => ?_⟩
  have hprevails := ofRatio_prevails_of_sign number.den_pos hother hne
  rwa [← hratio] at hprevails

namespace IsNearest

variable {value other : Binary64} {number larger : ℚ}

theorem of_prevails (hvalue : value ≠ nan) (h : ∀ other : Binary64, other ≠ nan →
    other.exact ≠ value.exact → Prevails number value other) : value.IsNearest number where
  ne_nan := hvalue
  closest other hother := by
    by_cases hsame : other.exact = value.exact
    · rw [hsame]
    · exact (h other hother hsame).le
  even other hother hne htie := by
    rcases h other hother hne with hless | ⟨-, heven, -⟩
    · exact absurd htie hless.ne
    · exact heven

/-- There is only one nearest place: two that are equally near are not both even. -/
theorem exact_eq (h : value.IsNearest number) (h' : other.IsNearest number) :
    value.exact = other.exact := by
  obtain ⟨best, hbest, hprevails⟩ := exists_prevails number
  have hunique : ∀ {value : Binary64}, value.IsNearest number → value.exact = best.exact := by
    intro value h
    by_contra hne
    rcases hprevails value h.ne_nan hne with hless | ⟨htie, -, hodd⟩
    · exact absurd (h.closest best hbest) (not_le.mpr hless)
    · exact hodd (h.even best hbest (Ne.symm hne) htie.symm)
  exact (hunique h).trans (hunique h').symm

theorem mono (h : value.IsNearest number) (h' : other.IsNearest larger) (hle : number ≤ larger) :
    value.exact ≤ other.exact := by
  by_contra hless
  rw [not_le] at hless
  -- both numbers would lie in the middle between the two places
  have hfirst := sq_le_sq.mpr (h.closest other h'.ne_nan)
  have hsecond := sq_le_sq.mpr (h'.closest value h.ne_nan)
  have hsame : number = larger := by
    by_contra hne
    have hmore : number < larger := lt_of_le_of_ne hle hne
    nlinarith
  exact hless.ne (h'.exact_eq (hsame ▸ h))

end IsNearest

/-- The sign of a double, which zeros and infinities have like all others. -/
def HasSign (negative : Bool) : Binary64 → Prop
  | nan => False
  | infinite sign => sign = negative
  | finite sign _ => sign = negative

theorem hasSign_ofRatio (negative : Bool) (numerator denominator : Nat) :
    (ofRatio negative numerator denominator).HasSign negative := by
  unfold ofRatio
  split <;> rfl

/-- The number and the sign tell doubles apart. -/
theorem eq_of_exact_eq {negative : Bool} {value other : Binary64} (hvalue : value.HasSign negative)
    (hother : other.HasSign negative) (h : value.exact = other.exact) : value = other := by
  have hplaces : ∀ {value other : Binary64} {place units : Nat},
      value.rank = some (signed negative place) → other.rank = some (signed negative units) →
      value.exact = other.exact → place = units := by
    intro value other place units hplace hunits h
    rw [exact_of_rank hplace, exact_of_rank hunits,
      div_left_inj' stepsPerOne_pos_rat.ne', Int.cast_inj] at h
    rw [← natAbs_signed negative place, h, natAbs_signed]
  cases value with
  | nan => exact hvalue.elim
  | infinite sign =>
    obtain rfl : sign = negative := hvalue
    cases other with
    | nan => exact hother.elim
    | infinite sign => rw [show sign = _ from hother]
    | finite sign size =>
      obtain rfl : sign = _ := hother
      exact absurd (hplaces rfl rfl h) size.representable.2.ne'
  | finite sign size =>
    obtain rfl : sign = negative := hvalue
    cases other with
    | nan => exact hother.elim
    | infinite sign =>
      obtain rfl : sign = _ := hother
      exact absurd (hplaces rfl rfl h) size.representable.2.ne
    | finite sign size' =>
      obtain rfl : sign = _ := hother
      have hunits : size.units = size'.units := hplaces rfl rfl h
      cases size
      cases size'
      cases hunits
      rfl

end Binary64

end StochasticGrammar
