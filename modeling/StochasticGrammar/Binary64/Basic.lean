namespace StochasticGrammar

def twoPow (n : Nat) : Nat := Nat.pow 2 n

def tenPow (n : Nat) : Nat := Nat.pow 10 n

theorem twoPow_pos (n : Nat) : 0 < twoPow n := Nat.two_pow_pos n

theorem twoPow_zero : twoPow 0 = 1 := rfl

theorem twoPow_add (m n : Nat) : twoPow (m + n) = twoPow m * twoPow n := Nat.pow_add 2 m n

theorem twoPow_succ (n : Nat) : twoPow (n + 1) = 2 * twoPow n :=
  Nat.pow_succ'.trans rfl

theorem twoPow_le {m n : Nat} (h : m ≤ n) : twoPow m ≤ twoPow n :=
  Nat.pow_le_pow_right (by decide) h

theorem twoPow_dvd {m n : Nat} (h : m ≤ n) : twoPow m ∣ twoPow n := Nat.pow_dvd_pow 2 h

theorem log2_twoPow (n : Nat) : (twoPow n).log2 = n := Nat.log2_two_pow

theorem log2_lt_iff {m n : Nat} (hm : m ≠ 0) : m.log2 < n ↔ m < twoPow n := Nat.log2_lt hm

theorem lt_twoPow_log2 (n : Nat) : n < twoPow (n.log2 + 1) := Nat.lt_log2_self

theorem twoPow_log2_le {n : Nat} (h : n ≠ 0) : twoPow n.log2 ≤ n := Nat.log2_self_le h

theorem log2_mono {m n : Nat} (h : m ≤ n) : m.log2 ≤ n.log2 := by
  by_cases hm : m = 0
  · rw [hm, Nat.log2_zero]
    exact Nat.zero_le _
  · have hlow := twoPow_log2_le hm
    refine Nat.le_of_not_lt fun hless => ?_
    have hbelow := (log2_lt_iff (by omega : n ≠ 0)).mp hless
    omega

theorem le_log2_of_twoPow_le {exponent n : Nat} (h : twoPow exponent ≤ n) : exponent ≤ n.log2 := by
  have hmono := log2_mono h
  rwa [log2_twoPow] at hmono

theorem log2_eq_of_le_of_lt {exponent n : Nat} (hle : twoPow exponent ≤ n)
    (hlt : n < twoPow (exponent + 1)) : n.log2 = exponent := by
  have hpos := twoPow_pos exponent
  have hbelow := (log2_lt_iff (by omega)).mpr hlt
  exact Nat.le_antisymm (Nat.le_of_lt_succ hbelow) (le_log2_of_twoPow_le hle)

theorem tenPow_le {m n : Nat} (h : m ≤ n) : tenPow m ≤ tenPow n :=
  Nat.pow_le_pow_right (by decide) h

theorem twoPow_le_tenPow (n : Nat) : twoPow n ≤ tenPow n := Nat.pow_le_pow_left (by decide) n

theorem tenPow_pos (n : Nat) : 0 < tenPow n := Nat.pow_pos (by decide)

theorem tenPow_add (m n : Nat) : tenPow (m + n) = tenPow m * tenPow n := Nat.pow_add 10 m n

attribute [irreducible] twoPow tenPow

/-- Every finite double has fewer steps than this: `2 ^ 1024` divided by `2 ^ -1074`. -/
def stepLimit : Nat := twoPow 2098

def stepsPerOne : Nat := twoPow 1074

/-- A count of steps with at most 53 significant bits below the limit. -/
def Representable (units : Nat) : Prop :=
  twoPow (units.log2 - 52) ∣ units ∧ units < stepLimit

instance (units : Nat) : Decidable (Representable units) :=
  inferInstanceAs (Decidable (_ ∧ _))

/-- The absolute value of a finite double, in steps of `2 ^ -1074`. -/
structure Magnitude where
  units : Nat
  representable : Representable units
deriving DecidableEq

/-- A double as an exact value: a NaN, an infinity, or a sign and a magnitude. -/
inductive Binary64 where
  | nan
  | infinite (negative : Bool)
  | finite (negative : Bool) (size : Magnitude)
deriving DecidableEq

theorem stepsPerOne_pos : 0 < stepsPerOne := twoPow_pos _

theorem stepLimit_pos : 0 < stepLimit := twoPow_pos _

theorem representable_zero : Representable 0 := ⟨Nat.dvd_zero _, stepLimit_pos⟩

/-- A significand of at most `2 ^ 53` on any binary grid is representable below the limit. -/
theorem representable_mul_twoPow {m k : Nat} (hm : m ≤ twoPow 53) (h : m * twoPow k < stepLimit) :
    Representable (m * twoPow k) := by
  refine ⟨?_, h⟩
  by_cases hz : m * twoPow k = 0
  · rw [hz]; exact Nat.dvd_zero _
  rcases Nat.lt_or_eq_of_le hm with hlt | heq
  · have hpow : m * twoPow k < twoPow (53 + k) := by
      rw [twoPow_add]; exact Nat.mul_lt_mul_of_pos_right hlt (twoPow_pos k)
    have hlog := (log2_lt_iff hz).mpr hpow
    exact Nat.dvd_trans (twoPow_dvd (by omega)) (Nat.dvd_mul_left _ _)
  · subst heq
    rw [← twoPow_add, log2_twoPow]
    exact twoPow_dvd (by omega)

namespace Magnitude

def zero : Magnitude := ⟨0, representable_zero⟩

/-- The exponent of the binary grid on which the neighbours of a magnitude lie. -/
def grid (size : Magnitude) : Nat := size.units.log2 - 52

end Magnitude

namespace Binary64

def signedZero (negative : Bool) : Binary64 := .finite negative .zero

instance : Zero Binary64 := ⟨signedZero false⟩

instance : Inhabited Binary64 := ⟨0⟩

def signed (negative : Bool) (units : Nat) : Int :=
  if negative then -(units : Int) else units

/-- Position on the number line in steps, the infinities at the limits; a NaN has none. -/
def rank : Binary64 → Option Int
  | nan => none
  | infinite negative => some (signed negative stepLimit)
  | finite negative size => some (signed negative size.units)

/-- The order of the number line: zeros are equal and a NaN is below nothing. -/
protected def Less (x y : Binary64) : Prop := ∃ a b, x.rank = some a ∧ y.rank = some b ∧ a < b

/-- The order of the number line with equality: a NaN is not even at most itself. -/
protected def AtMost (x y : Binary64) : Prop := ∃ a b, x.rank = some a ∧ y.rank = some b ∧ a ≤ b

instance : LT Binary64 := ⟨Binary64.Less⟩

instance : LE Binary64 := ⟨Binary64.AtMost⟩

theorem lt_of_rank {x y : Binary64} {a b : Int} (hx : x.rank = some a) (hy : y.rank = some b) :
    x < y ↔ a < b := by
  constructor
  · rintro ⟨a', b', ha, hb, h⟩
    rw [hx] at ha; rw [hy] at hb
    cases ha; cases hb; exact h
  · exact fun h => ⟨a, b, hx, hy, h⟩

theorem le_of_rank {x y : Binary64} {a b : Int} (hx : x.rank = some a) (hy : y.rank = some b) :
    x ≤ y ↔ a ≤ b := by
  constructor
  · rintro ⟨a', b', ha, hb, h⟩
    rw [hx] at ha; rw [hy] at hb
    cases ha; cases hb; exact h
  · exact fun h => ⟨a, b, hx, hy, h⟩

instance (x y : Binary64) : Decidable (x < y) :=
  match hx : x.rank, hy : y.rank with
  | some _, some _ => decidable_of_iff _ (lt_of_rank hx hy).symm
  | none, _ => .isFalse fun ⟨_, _, h, _⟩ => by simp [hx] at h
  | some _, none => .isFalse fun ⟨_, _, _, h, _⟩ => by simp [hy] at h

instance (x y : Binary64) : Decidable (x ≤ y) :=
  match hx : x.rank, hy : y.rank with
  | some _, some _ => decidable_of_iff _ (le_of_rank hx hy).symm
  | none, _ => .isFalse fun ⟨_, _, h, _⟩ => by simp [hx] at h
  | some _, none => .isFalse fun ⟨_, _, _, h, _⟩ => by simp [hy] at h

def IsZero (x : Binary64) : Prop := x.rank = some 0

instance (x : Binary64) : Decidable x.IsZero := inferInstanceAs (Decidable (_ = _))

def IsFinite : Binary64 → Prop
  | finite .. => True
  | _ => False

instance : DecidablePred IsFinite := fun
  | finite .. => .isTrue trivial
  | infinite _ => .isFalse id
  | nan => .isFalse id

protected def neg : Binary64 → Binary64
  | nan => nan
  | infinite negative => infinite !negative
  | finite negative size => finite (!negative) size

instance : Neg Binary64 := ⟨Binary64.neg⟩

/-- The steps of a finite bit pattern, an exponent of zero standing for the subnormals. -/
def unitsOfFields (exponent fraction : Nat) : Nat :=
  if exponent = 0 then fraction else (twoPow 52 + fraction) * twoPow (exponent - 1)

theorem significand_mul_twoPow_le {shift : Nat} (h : shift ≤ 2045) :
    twoPow 53 * twoPow shift ≤ stepLimit := by
  rw [← twoPow_add]
  exact twoPow_le (by omega)

theorem representable_unitsOfFields {exponent fraction : Nat} (he : exponent < 2047)
    (hf : fraction < twoPow 52) : Representable (unitsOfFields exponent fraction) := by
  have hdouble : twoPow 53 = 2 * twoPow 52 := twoPow_succ 52
  unfold unitsOfFields
  split
  · have hlimit := significand_mul_twoPow_le (Nat.zero_le 2045)
    have hrep := representable_mul_twoPow (Nat.le_of_lt (by omega : fraction < twoPow 53))
      (by rw [twoPow_zero] at hlimit ⊢; omega)
    rwa [twoPow_zero, Nat.mul_one] at hrep
  · refine representable_mul_twoPow (by omega) ?_
    exact Nat.lt_of_lt_of_le (Nat.mul_lt_mul_of_pos_right (by omega) (twoPow_pos _))
      (significand_mul_twoPow_le (by omega))

/-- The double of a sign bit, eleven bits of exponent and 52 bits of fraction. Every NaN reads as
the one NaN. -/
def ofBits (bits : UInt64) : Binary64 :=
  let negative := decide (twoPow 63 ≤ bits.toNat)
  let exponent := bits.toNat / twoPow 52 % 2048
  if he : exponent < 2047 then
    .finite negative ⟨unitsOfFields exponent (bits.toNat % twoPow 52),
      representable_unitsOfFields he (Nat.mod_lt _ (twoPow_pos 52))⟩
  else if bits.toNat % twoPow 52 = 0 then .infinite negative
  else .nan

end Binary64

end StochasticGrammar
