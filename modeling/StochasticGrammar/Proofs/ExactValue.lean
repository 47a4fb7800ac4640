import StochasticGrammar.Proofs.RoundingOrder
import Mathlib.Data.Rat.Floor
import Mathlib.Tactic.Linarith

namespace StochasticGrammar

theorem twoPow_eq_pow (n : Nat) : twoPow n = 2 ^ n := by
  unfold twoPow
  rfl

theorem tenPow_eq_pow (n : Nat) : tenPow n = 10 ^ n := by
  unfold tenPow
  rfl

theorem stepsPerOne_pos_rat : (0 : ℚ) < stepsPerOne := Nat.cast_pos.mpr stepsPerOne_pos

/-- One with the sign of a number. -/
def signUnit (negative : Bool) : ℚ := if negative then -1 else 1

namespace Binary64

/-- The number that a double stands for. Infinities stand where the next larger double would be; a
NaN stands nowhere, and zero is given for it. -/
def exact (value : Binary64) : ℚ := (value.rank.getD 0 : ℤ) / (stepsPerOne : ℚ)

theorem exact_of_rank {value : Binary64} {place : Int} (h : value.rank = some place) :
    value.exact = place / (stepsPerOne : ℚ) := by
  unfold exact
  rw [h, Option.getD_some]

theorem LiesAt.exact_eq {value : Binary64} {place : Nat} (h : value.LiesAt place) :
    value.exact = place / (stepsPerOne : ℚ) := by
  rw [exact_of_rank h, Int.cast_natCast]

theorem signed_not (negative : Bool) (units : Nat) :
    signed (!negative) units = -signed negative units := by
  cases negative <;> simp [signed]

theorem rank_neg {value : Binary64} {place : Int} (h : value.rank = some place) :
    (-value).rank = some (-place) := by
  change (Binary64.neg value).rank = _
  cases value with
  | nan => cases h
  | infinite negative => exact congrArg some ((signed_not _ _).trans (by rw [← Option.some.inj h]))
  | finite negative size =>
    exact congrArg some ((signed_not _ _).trans (by rw [← Option.some.inj h]))

theorem exact_neg (value : Binary64) : (-value).exact = -value.exact := by
  unfold exact
  cases hplace : value.rank with
  | some place =>
    rw [rank_neg hplace, Option.getD_some, Option.getD_some, Int.cast_neg, neg_div]
  | none =>
    have hneg : (-value).rank = none := by
      cases value <;> cases hplace
      rfl
    rw [hneg, Option.getD_none, Int.cast_zero, zero_div, neg_zero]

theorem lt_iff_exact_lt {first second : Binary64} {a b : Int} (h : first.rank = some a)
    (h' : second.rank = some b) : first < second ↔ first.exact < second.exact := by
  rw [lt_of_rank h h', exact_of_rank h, exact_of_rank h',
    div_lt_div_iff_of_pos_right stepsPerOne_pos_rat, Int.cast_lt]

theorem le_iff_exact_le {first second : Binary64} {a b : Int} (h : first.rank = some a)
    (h' : second.rank = some b) : first ≤ second ↔ first.exact ≤ second.exact := by
  rw [le_of_rank h h', exact_of_rank h, exact_of_rank h',
    div_le_div_iff_of_pos_right stepsPerOne_pos_rat, Int.cast_le]

theorem IsFinite.floor_eq {value : Binary64} (h : value.IsFinite) :
    value.floor = .ok ⌊value.exact⌋ := by
  cases value with
  | nan => exact h.elim
  | infinite negative => exact h.elim
  | finite negative size =>
    rw [exact_of_rank rfl, Rat.floor_intCast_div_natCast]
    rfl

theorem IsAmount.exists_liesAt {value : Binary64} (h : value.IsAmount) :
    ∃ size : Magnitude, value.LiesAt size.units := by
  obtain ⟨negative, size, rfl, hsize⟩ := h.exists_eq
  exact ⟨size, congrArg some hsize⟩

theorem IsAmount.exact_nonneg {value : Binary64} (h : value.IsAmount) : 0 ≤ value.exact := by
  obtain ⟨size, hsize⟩ := h.exists_liesAt
  rw [hsize.exact_eq]
  positivity

end Binary64

end StochasticGrammar
