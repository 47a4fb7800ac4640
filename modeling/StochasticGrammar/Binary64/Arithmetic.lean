import StochasticGrammar.Binary64.Basic

namespace StochasticGrammar

/-- The whole number nearest to a ratio, the even one of two equally near. -/
def nearestEven (numerator denominator : Nat) : Nat :=
  let whole := numerator / denominator
  let rest := numerator % denominator
  if 2 * rest < denominator ∨ (2 * rest = denominator ∧ whole % 2 = 0) then whole else whole + 1

theorem nearestEven_le_succ (numerator denominator : Nat) :
    nearestEven numerator denominator ≤ numerator / denominator + 1 := by
  unfold nearestEven
  dsimp only
  split <;> omega

theorem le_nearestEven (numerator denominator : Nat) :
    numerator / denominator ≤ nearestEven numerator denominator := by
  unfold nearestEven
  dsimp only
  split <;> omega

/-- The exponent of the binary grid that keeps 53 significant bits of a ratio. -/
def roundingGrid (numerator denominator : Nat) : Nat := (numerator / denominator).log2 - 52

/-- The ratio rounded to 53 significant bits, and to a whole number where it has fewer. -/
def roundedUnits (numerator denominator : Nat) : Nat :=
  nearestEven numerator (denominator * twoPow (roundingGrid numerator denominator)) *
    twoPow (roundingGrid numerator denominator)

theorem rounded_significand_le (numerator denominator : Nat) :
    nearestEven numerator (denominator * twoPow (roundingGrid numerator denominator)) ≤
      twoPow 53 := by
  have hbelow : numerator / denominator < twoPow (53 + roundingGrid numerator denominator) := by
    refine Nat.lt_of_lt_of_le (lt_twoPow_log2 _) (twoPow_le ?_)
    unfold roundingGrid
    omega
  have hquotient :
      numerator / (denominator * twoPow (roundingGrid numerator denominator)) < twoPow 53 := by
    rw [← Nat.div_div_eq_div_mul]
    refine Nat.div_lt_of_lt_mul ?_
    rwa [← twoPow_add, Nat.add_comm]
  have hup := nearestEven_le_succ numerator
    (denominator * twoPow (roundingGrid numerator denominator))
  omega

theorem representable_roundedUnits {numerator denominator : Nat}
    (h : roundedUnits numerator denominator < stepLimit) :
    Representable (roundedUnits numerator denominator) :=
  representable_mul_twoPow (rounded_significand_le numerator denominator) h

namespace Binary64

/-- The double nearest to a ratio of steps, infinite from the middle above the largest double. -/
def ofRatio (negative : Bool) (numerator denominator : Nat) : Binary64 :=
  if h : roundedUnits numerator denominator < stepLimit then
    .finite negative ⟨roundedUnits numerator denominator, representable_roundedUnits h⟩
  else .infinite negative

def ofInt (value : Int) : Binary64 :=
  ofRatio (value < 0) (value.natAbs * stepsPerOne) 1

end Binary64

/-- The values that have no whole part. -/
inductive NotFinite where
  | nan
  | infinity
deriving DecidableEq

namespace NotFinite

def message : NotFinite → String
  | nan => "cannot convert float NaN to integer"
  | infinity => "cannot convert float infinity to integer"

end NotFinite

namespace Binary64

def half : Binary64 := ofRatio false stepsPerOne 2

/-- The sum of two doubles; a sum that cancels exactly is the positive zero. -/
protected def add : Binary64 → Binary64 → Binary64
  | nan, _ => nan
  | _, nan => nan
  | infinite s, infinite t => if s = t then infinite s else nan
  | infinite s, finite _ _ => infinite s
  | finite _ _, infinite t => infinite t
  | finite s a, finite t b =>
    let total := signed s a.units + signed t b.units
    if total = 0 then signedZero (s && t) else ofRatio (total < 0) total.natAbs 1

protected def mul : Binary64 → Binary64 → Binary64
  | nan, _ => nan
  | _, nan => nan
  | infinite s, infinite t => infinite (s != t)
  | infinite s, finite t b => if b.units = 0 then nan else infinite (s != t)
  | finite s a, infinite t => if a.units = 0 then nan else infinite (s != t)
  | finite s a, finite t b => ofRatio (s != t) (a.units * b.units) stepsPerOne

instance : Add Binary64 := ⟨Binary64.add⟩

instance : Sub Binary64 := ⟨fun x y => x + -y⟩

instance : Mul Binary64 := ⟨Binary64.mul⟩

/-- The sum of a list of doubles from the left, starting from zero, with every partial sum rounded.
This is how version 3.11 of the runtime adds; 3.12 and later compensate for what rounding loses. -/
def sum (values : List Binary64) : Binary64 := values.foldl (· + ·) 0

def floor : Binary64 → Except NotFinite Int
  | nan => .error .nan
  | infinite _ => .error .infinity
  | finite negative size => .ok (signed negative size.units / (stepsPerOne : Int))

end Binary64

end StochasticGrammar
