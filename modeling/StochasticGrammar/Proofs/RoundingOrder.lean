import StochasticGrammar.Proofs.SignRules
import Mathlib.Data.List.Induction

namespace StochasticGrammar

theorem nearestEven_mono {first second : Nat} (denominator : Nat) (h : first ≤ second) :
    nearestEven first denominator ≤ nearestEven second denominator := by
  rcases Nat.lt_or_eq_of_le (Nat.div_le_div_right (c := denominator) h) with hless | heq
  · have hup := nearestEven_le_succ first denominator
    have hdown := le_nearestEven second denominator
    omega
  · have hrest : first % denominator ≤ second % denominator := by
      have hfirst := Nat.div_add_mod first denominator
      have hsecond := Nat.div_add_mod second denominator
      rw [heq] at hfirst
      omega
    unfold nearestEven
    simp only [heq]
    split <;> split <;> omega

theorem nearestEven_mul_mul {factor : Nat} (h : 0 < factor) (numerator denominator : Nat) :
    nearestEven (numerator * factor) (denominator * factor) =
      nearestEven numerator denominator := by
  have hhalf : 2 * (numerator % denominator * factor) = 2 * (numerator % denominator) * factor :=
    (Nat.mul_assoc 2 _ _).symm
  unfold nearestEven
  simp only [Nat.mul_div_mul_right _ _ h, Nat.mul_mod_mul_right, hhalf, Nat.mul_lt_mul_right h,
    Nat.mul_left_inj (Nat.ne_of_gt h)]

/-- A ratio that is rounded on a grid coarser than the whole numbers keeps its leading bit. -/
theorem twoPow_le_roundedUnits {numerator denominator : Nat}
    (h : 0 < roundingGrid numerator denominator) :
    twoPow (52 + roundingGrid numerator denominator) ≤ roundedUnits numerator denominator := by
  have hlog : 52 + roundingGrid numerator denominator = (numerator / denominator).log2 := by
    unfold roundingGrid at h ⊢
    omega
  have hquotient : numerator / denominator ≠ 0 := by
    intro hzero
    rw [hzero, Nat.log2_zero] at hlog
    omega
  have hlow := twoPow_log2_le hquotient
  rw [← hlog, twoPow_add] at hlow
  have hsignificand :
      twoPow 52 ≤ numerator / (denominator * twoPow (roundingGrid numerator denominator)) := by
    rw [← Nat.div_div_eq_div_mul]
    exact (Nat.le_div_iff_mul_le (twoPow_pos _)).mpr hlow
  unfold roundedUnits
  rw [twoPow_add]
  exact Nat.mul_le_mul_right _ (Nat.le_trans hsignificand (le_nearestEven _ _))

theorem roundedUnits_le_twoPow (numerator denominator : Nat) :
    roundedUnits numerator denominator ≤ twoPow (53 + roundingGrid numerator denominator) := by
  unfold roundedUnits
  rw [twoPow_add]
  exact Nat.mul_le_mul_right _ (rounded_significand_le numerator denominator)

theorem roundedUnits_mono {first second : Nat} (denominator : Nat) (h : first ≤ second) :
    roundedUnits first denominator ≤ roundedUnits second denominator := by
  have hgrid : roundingGrid first denominator ≤ roundingGrid second denominator :=
    Nat.sub_le_sub_right (log2_mono (Nat.div_le_div_right h)) 52
  rcases Nat.lt_or_eq_of_le hgrid with hcoarser | hsame
  · calc
      roundedUnits first denominator
      _ ≤ twoPow (53 + roundingGrid first denominator) := roundedUnits_le_twoPow _ _
      _ ≤ twoPow (52 + roundingGrid second denominator) := twoPow_le (by omega)
      _ ≤ roundedUnits second denominator := twoPow_le_roundedUnits (by omega)
  · unfold roundedUnits
    rw [hsame]
    exact Nat.mul_le_mul_right _ (nearestEven_mono _ h)

theorem roundedUnits_mul_mul {factor : Nat} (h : 0 < factor) (numerator denominator : Nat) :
    roundedUnits (numerator * factor) (denominator * factor) =
      roundedUnits numerator denominator := by
  have hgrid : roundingGrid (numerator * factor) (denominator * factor) =
      roundingGrid numerator denominator := by
    unfold roundingGrid
    rw [Nat.mul_div_mul_right _ _ h]
  unfold roundedUnits
  rw [hgrid, Nat.mul_right_comm, nearestEven_mul_mul h]

theorem roundedUnits_stepLimit : roundedUnits stepLimit 1 = stepLimit := by
  refine roundedUnits_of_dvd ?_
  unfold stepLimit
  rw [log2_twoPow]
  exact twoPow_dvd (by decide)

theorem stepLimit_le_roundedUnits {units : Nat} (h : stepLimit ≤ units) :
    stepLimit ≤ roundedUnits units 1 := by
  have hmono := roundedUnits_mono 1 h
  rwa [roundedUnits_stepLimit] at hmono

namespace Binary64

/-- The value lies at a number of steps that is not negative, the infinity at the limit. -/
def LiesAt (value : Binary64) (place : Nat) : Prop := value.rank = some (place : Int)

theorem liesAt_zero : (0 : Binary64).LiesAt 0 := rfl

theorem LiesAt.lt_iff {first second : Binary64} {a b : Nat} (h : first.LiesAt a)
    (h' : second.LiesAt b) : first < second ↔ a < b :=
  (lt_of_rank h h').trans Int.ofNat_lt

theorem LiesAt.le_iff {first second : Binary64} {a b : Nat} (h : first.LiesAt a)
    (h' : second.LiesAt b) : first ≤ second ↔ a ≤ b :=
  (le_of_rank h h').trans Int.ofNat_le

theorem nonneg_iff_exists_liesAt {value : Binary64} : 0 ≤ value ↔ ∃ place, value.LiesAt place := by
  constructor
  · rintro ⟨zero, place, hzero, hplace, hle⟩
    obtain rfl : (0 : Int) = zero := Option.some.inj hzero
    refine ⟨place.toNat, hplace.trans ?_⟩
    rw [Int.toNat_of_nonneg hle]
  · rintro ⟨place, hplace⟩
    exact ⟨0, place, rfl, hplace, Int.natCast_nonneg place⟩

theorem IsAmount.nonneg {value : Binary64} (h : value.IsAmount) : 0 ≤ value := by
  obtain ⟨negative, size, rfl, hsize⟩ := h.exists_eq
  exact nonneg_iff_exists_liesAt.mpr ⟨size.units, congrArg some hsize⟩

theorem eq_infinite_of_not_isFinite {value : Binary64} (h : 0 ≤ value)
    (hinfinite : ¬value.IsFinite) : value = infinite false := by
  cases value with
  | nan =>
    obtain ⟨_, _, _, hplace, -⟩ := h
    cases hplace
  | infinite negative =>
    cases negative with
    | false => rfl
    | true => exact absurd h (by decide +kernel)
  | finite negative size => exact absurd trivial hinfinite

theorem liesAt_ofRatio (numerator denominator : Nat) :
    (ofRatio false numerator denominator).LiesAt
      (min (roundedUnits numerator denominator) stepLimit) := by
  unfold ofRatio LiesAt
  split
  next hbelow => rw [Nat.min_eq_left (Nat.le_of_lt hbelow)]; rfl
  next habove => rw [Nat.min_eq_right (Nat.le_of_not_lt habove)]; rfl

namespace LiesAt

variable {value first second : Binary64} {place a b : Nat}

/-- A place belongs to the positive infinity or to a finite double of as many steps. -/
theorem infinite_or_finite (h : value.LiesAt place) :
    (value = infinite false ∧ place = stepLimit) ∨
      ∃ negative size, value = finite negative size ∧ size.units = place := by
  have hpos := stepLimit_pos
  cases value with
  | nan => cases h
  | infinite negative =>
    have hplace : signed negative stepLimit = (place : Int) := Option.some.inj h
    cases negative <;> simp only [signed, ↓reduceIte, Bool.false_eq_true] at hplace
    · exact .inl ⟨rfl, by omega⟩
    · omega
  | finite negative size =>
    have hplace : signed negative size.units = (place : Int) := Option.some.inj h
    refine .inr ⟨negative, size, rfl, ?_⟩
    cases negative <;> simp only [signed, ↓reduceIte, Bool.false_eq_true] at hplace <;> omega

theorem le_stepLimit (h : value.LiesAt place) : place ≤ stepLimit := by
  rcases h.infinite_or_finite with ⟨-, rfl⟩ | ⟨negative, size, -, rfl⟩
  · exact Nat.le_refl _
  · exact Nat.le_of_lt size.representable.2

theorem roundedUnits_eq (h : value.LiesAt place) : roundedUnits place 1 = place := by
  rcases h.infinite_or_finite with ⟨-, rfl⟩ | ⟨negative, size, -, rfl⟩
  · exact roundedUnits_stepLimit
  · exact roundedUnits_of_representable size.representable

theorem isFinite_iff (h : value.LiesAt place) : value.IsFinite ↔ place < stepLimit := by
  rcases h.infinite_or_finite with ⟨rfl, rfl⟩ | ⟨negative, size, rfl, rfl⟩
  · exact iff_of_false id (Nat.lt_irrefl _)
  · exact iff_of_true trivial size.representable.2

/-- The place of a sum is the sum of the places rounded once, and the limit where it overflows. -/
theorem add (h : first.LiesAt a) (h' : second.LiesAt b) :
    (first + second).LiesAt (min (roundedUnits (a + b) 1) stepLimit) := by
  have hoverflow (count : Nat) (hlarge : stepLimit ≤ count) :
      (infinite false).LiesAt (min (roundedUnits count 1) stepLimit) := by
    rw [Nat.min_eq_right (stepLimit_le_roundedUnits hlarge)]
    rfl
  change (Binary64.add _ _).LiesAt _
  rcases h.infinite_or_finite with ⟨rfl, rfl⟩ | ⟨s, size, rfl, rfl⟩ <;>
    rcases h'.infinite_or_finite with ⟨rfl, rfl⟩ | ⟨t, size', rfl, rfl⟩
  · exact hoverflow _ (Nat.le_add_right _ _)
  · exact hoverflow _ (Nat.le_add_right _ _)
  · exact hoverflow _ (Nat.le_add_left _ _)
  · have hfirst : signed s size.units = size.units := Option.some.inj h
    have hsecond : signed t size'.units = size'.units := Option.some.inj h'
    simp only [Binary64.add, hfirst, hsecond, ← Int.natCast_add, Int.natAbs_natCast]
    have hsign : decide (((size.units + size'.units : Nat) : Int) < 0) = false :=
      decide_eq_false (by omega)
    rw [hsign]
    split
    next hzero =>
      rw [Int.natCast_eq_zero.mp hzero, roundedUnits_zero, Nat.zero_min]
      exact rank_signedZero _
    next => exact liesAt_ofRatio _ _

theorem zero_add (h : first.LiesAt 0) (h' : second.LiesAt b) : (first + second).LiesAt b := by
  have hsum := h.add h'
  rwa [Nat.zero_add, h'.roundedUnits_eq, Nat.min_eq_left h'.le_stepLimit] at hsum

/-- The place of a product of finite doubles is the product of the places, in steps, rounded. -/
theorem mul (h : first.LiesAt a) (h' : second.LiesAt b) (hfirst : first.IsFinite)
    (hsecond : second.IsFinite) :
    (first * second).LiesAt (min (roundedUnits (a * b) stepsPerOne) stepLimit) := by
  change (Binary64.mul _ _).LiesAt _
  rcases h.infinite_or_finite with ⟨rfl, -⟩ | ⟨s, size, rfl, rfl⟩
  · exact hfirst.elim
  rcases h'.infinite_or_finite with ⟨rfl, -⟩ | ⟨t, size', rfl, rfl⟩
  · exact hsecond.elim
  have hleft : signed s size.units = size.units := Option.some.inj h
  have hright : signed t size'.units = size'.units := Option.some.inj h'
  simp only [Binary64.mul]
  by_cases hzero : size.units * size'.units = 0
  · rw [hzero, ofRatio_zero, roundedUnits_zero, Nat.zero_min]
    exact rank_signedZero _
  · have hunits := Nat.mul_ne_zero_iff.mp hzero
    have hpositive : s = false ∧ t = false := by
      cases s <;> cases t <;> simp only [signed, ↓reduceIte, Bool.false_eq_true] at hleft hright <;>
        first | omega | exact ⟨rfl, rfl⟩
    rw [hpositive.1, hpositive.2]
    exact liesAt_ofRatio _ _

end LiesAt

variable {first second third : Binary64}

theorem le_trans (h : first ≤ second) (h' : second ≤ third) : first ≤ third := by
  obtain ⟨a, b, hfirst, hsecond, hle⟩ := h
  obtain ⟨other, c, hother, hthird, hle'⟩ := h'
  obtain rfl : b = other := Option.some.inj (hsecond.symm.trans hother)
  exact ⟨a, c, hfirst, hthird, Int.le_trans hle hle'⟩

theorem le_add_right (h : 0 ≤ first) (h' : 0 ≤ second) : first ≤ first + second := by
  obtain ⟨a, ha⟩ := nonneg_iff_exists_liesAt.mp h
  obtain ⟨b, hb⟩ := nonneg_iff_exists_liesAt.mp h'
  have hmono := roundedUnits_mono 1 (Nat.le_add_right a b)
  rw [ha.roundedUnits_eq] at hmono
  exact (ha.le_iff (ha.add hb)).mpr (Nat.le_min.mpr ⟨hmono, ha.le_stepLimit⟩)

theorem le_add_left (h : 0 ≤ first) (h' : 0 ≤ second) : second ≤ first + second := by
  obtain ⟨a, ha⟩ := nonneg_iff_exists_liesAt.mp h
  obtain ⟨b, hb⟩ := nonneg_iff_exists_liesAt.mp h'
  have hmono := roundedUnits_mono 1 (Nat.le_add_left b a)
  rw [hb.roundedUnits_eq] at hmono
  exact (hb.le_iff (ha.add hb)).mpr (Nat.le_min.mpr ⟨hmono, hb.le_stepLimit⟩)

theorem add_nonneg (h : 0 ≤ first) (h' : 0 ≤ second) : 0 ≤ first + second :=
  le_trans h (le_add_right h h')

theorem sum_concat (values : List Binary64) (last : Binary64) :
    sum (values ++ [last]) = sum values + last := by
  unfold sum
  rw [List.foldl_append]
  rfl

theorem sum_nonneg {values : List Binary64} (h : ∀ value ∈ values, 0 ≤ value) :
    0 ≤ sum values := by
  induction values using List.reverseRecOn with
  | nil => exact ⟨0, 0, rfl, rfl, Int.le_refl 0⟩
  | append_singleton values last ih =>
    rw [sum_concat]
    exact add_nonneg (ih fun value hmem => h value (List.mem_append_left _ hmem))
      (h last (List.mem_append_right _ List.mem_cons_self))

/-- A sum is at least each of its terms, although it is rounded after each of them. -/
theorem le_sum {values : List Binary64} (h : ∀ value ∈ values, 0 ≤ value) {value : Binary64}
    (hmem : value ∈ values) : value ≤ sum values := by
  induction values using List.reverseRecOn with
  | nil => cases hmem
  | append_singleton values last ih =>
    have hvalues : ∀ value ∈ values, 0 ≤ value :=
      fun value hmem => h value (List.mem_append_left _ hmem)
    have hlast := h last (List.mem_append_right _ List.mem_cons_self)
    rw [sum_concat]
    rcases List.mem_append.mp hmem with hearlier | hend
    · exact le_trans (ih hvalues hearlier) (le_add_right (sum_nonneg hvalues) hlast)
    · rw [List.mem_singleton.mp hend]
      exact le_add_left (sum_nonneg hvalues) hlast

theorem liesAt_sum_of_isZero {values : List Binary64} (h : ∀ value ∈ values, value.IsZero)
    {running : Binary64} {place : Nat} (hrunning : running.LiesAt place) :
    (values.foldl (· + ·) running).LiesAt place := by
  induction values generalizing running with
  | nil => exact hrunning
  | cons value rest ih =>
    refine ih (fun other hother => h other (List.mem_cons_of_mem _ hother)) ?_
    exact (rank_add_of_isZero (h value List.mem_cons_self)).trans hrunning

/-- Values of at most a power of two add up to at most that many times the power, in spite of the
rounding, if the number of values has at most 53 bits. -/
theorem exists_liesAt_sum_of_le {values : List Binary64} {exponent : Nat}
    (h : ∀ value ∈ values, 0 ≤ value ∧ value ≤ ofRatio false (twoPow exponent) 1)
    (hcount : values.length ≤ twoPow 53) (hlimit : values.length * twoPow exponent < stepLimit) :
    ∃ place, (sum values).LiesAt place ∧ place ≤ values.length * twoPow exponent := by
  induction values using List.reverseRecOn with
  | nil => exact ⟨0, rfl, Nat.zero_le _⟩
  | append_singleton values last ih =>
    rw [List.length_append, List.length_singleton] at hcount hlimit ⊢
    have hsplit := Nat.add_mul values.length 1 (twoPow exponent)
    obtain ⟨place, hplace, hle⟩ :=
      ih (fun value hmem => h value (List.mem_append_left _ hmem)) (by omega) (by omega)
    obtain ⟨hnonneg, hbound⟩ := h last (List.mem_append_right _ List.mem_cons_self)
    obtain ⟨size, hsize⟩ := nonneg_iff_exists_liesAt.mp hnonneg
    have hpower : roundedUnits (twoPow exponent) 1 = twoPow exponent :=
      roundedUnits_of_dvd (by rw [log2_twoPow]; exact twoPow_dvd (Nat.sub_le _ _))
    have hlast : size ≤ twoPow exponent := by
      have hmin := (hsize.le_iff (liesAt_ofRatio _ _)).mp hbound
      rw [hpower] at hmin
      exact Nat.le_trans hmin (Nat.min_le_left _ _)
    have hgrid := roundedUnits_of_representable (representable_mul_twoPow hcount hlimit)
    refine ⟨_, sum_concat values last ▸ hplace.add hsize, ?_⟩
    calc
      min (roundedUnits (place + size) 1) stepLimit
      _ ≤ roundedUnits (place + size) 1 := Nat.min_le_left _ _
      _ ≤ roundedUnits ((values.length + 1) * twoPow exponent) 1 := roundedUnits_mono 1 (by omega)
      _ = (values.length + 1) * twoPow exponent := hgrid

variable {draw later total : Binary64}

theorem not_infinite_lt (value : Binary64) : ¬infinite false < value := by
  rintro ⟨limit, place, hlimit, hplace, hless⟩
  obtain rfl : (stepLimit : Int) = limit := Option.some.inj hlimit
  have hpos := stepLimit_pos
  cases value with
  | nan => cases hplace
  | infinite negative =>
    obtain rfl := Option.some.inj hplace
    cases negative <;> simp only [signed, ↓reduceIte, Bool.false_eq_true] at hless <;> omega
  | finite negative size =>
    obtain rfl := Option.some.inj hplace
    have hsize := size.representable.2
    cases negative <;> simp only [signed, ↓reduceIte, Bool.false_eq_true] at hless <;> omega

theorem IsDraw.exists_liesAt (h : draw.IsDraw) :
    ∃ place, draw.LiesAt place ∧ place < stepsPerOne := by
  obtain ⟨place, hplace⟩ := nonneg_iff_exists_liesAt.mp h.nonneg
  have hone : (ofInt 1).rank = some (stepsPerOne : Int) := by decide +kernel
  exact ⟨place, hplace, (hplace.lt_iff hone).mp h.below⟩

/-- By an infinite total a draw of zero is scaled to a NaN and every other draw to infinity. -/
theorem IsDraw.mul_infinite (h : draw.IsDraw) :
    draw * infinite false = if draw.IsZero then nan else infinite false := by
  obtain ⟨negative, size, rfl, hsize⟩ := h.isAmount.exists_eq
  have hzero : (finite negative size).IsZero ↔ size.units = 0 := by
    change some (signed negative size.units) = some 0 ↔ _
    rw [hsize, Option.some.injEq, Int.natCast_eq_zero]
  change Binary64.mul _ _ = _
  simp only [Binary64.mul, hzero]
  split
  next => rfl
  next hunits =>
    cases negative with
    | false => rfl
    | true =>
      simp only [signed, ↓reduceIte] at hsize
      omega

theorem IsDraw.not_mul_infinite_lt (h : draw.IsDraw) (value : Binary64) :
    ¬draw * infinite false < value := by
  rw [h.mul_infinite]
  split
  next =>
    rintro ⟨_, _, hplace, -⟩
    cases hplace
  next => exact not_infinite_lt value

/-- By a finite total a draw is scaled to at most the total, to which it may be rounded up. -/
theorem IsDraw.liesAt_mul (h : draw.IsDraw) {a b : Nat} (ha : draw.LiesAt a) (hb : total.LiesAt b)
    (hfinite : total.IsFinite) :
    (draw * total).LiesAt (roundedUnits (a * b) stepsPerOne) ∧
      roundedUnits (a * b) stepsPerOne ≤ b := by
  obtain ⟨place, hplace, hbelow⟩ := h.exists_liesAt
  obtain rfl : a = place := Int.ofNat.inj (Option.some.inj (ha.symm.trans hplace))
  have hle : roundedUnits (a * b) stepsPerOne ≤ b :=
    calc
      roundedUnits (a * b) stepsPerOne
      _ ≤ roundedUnits (b * stepsPerOne) stepsPerOne :=
        roundedUnits_mono _ (by rw [Nat.mul_comm]; exact Nat.mul_le_mul_left _ (Nat.le_of_lt hbelow))
      _ = roundedUnits (b * stepsPerOne) (1 * stepsPerOne) := by rw [Nat.one_mul]
      _ = roundedUnits b 1 := roundedUnits_mul_mul stepsPerOne_pos b 1
      _ = b := hb.roundedUnits_eq
  have hmul := ha.mul hb h.isAmount.1 hfinite
  rw [Nat.min_eq_left (Nat.le_trans hle hb.le_stepLimit)] at hmul
  exact ⟨hmul, hle⟩

/-- What is above a scaled draw is above every earlier draw scaled by the same total. -/
theorem IsDraw.mul_lt_of_le (h : draw.IsDraw) (hlater : later.IsDraw) (hle : draw ≤ later)
    (htotal : 0 ≤ total) {value : Binary64} (habove : later * total < value) :
    draw * total < value := by
  obtain ⟨b, hb⟩ := nonneg_iff_exists_liesAt.mp htotal
  rcases hb.infinite_or_finite with ⟨rfl, -⟩ | ⟨negative, size, rfl, -⟩
  · exact absurd habove (hlater.not_mul_infinite_lt value)
  · obtain ⟨a, ha, -⟩ := h.exists_liesAt
    obtain ⟨c, hc, -⟩ := hlater.exists_liesAt
    have hdraw := (h.liesAt_mul ha hb trivial).1
    have hmul := (hlater.liesAt_mul hc hb trivial).1
    have hmono : roundedUnits (a * b) stepsPerOne ≤ roundedUnits (c * b) stepsPerOne :=
      roundedUnits_mono _ (Nat.mul_le_mul_right b ((ha.le_iff hc).mp hle))
    obtain ⟨place, limit, hplace, hvalue, hless⟩ := habove
    obtain rfl := Option.some.inj (hplace.symm.trans hmul)
    exact ⟨_, limit, hdraw, hvalue, by omega⟩

end Binary64

end StochasticGrammar
