import StochasticGrammar.Binary64.Arithmetic

namespace StochasticGrammar

/-- The number `coefficient * 10 ^ exponent` with a sign, which a zero keeps. -/
structure Decimal where
  negative : Bool
  coefficient : Nat
  exponent : Int
deriving DecidableEq

namespace Decimal

/-- The ratio of steps that a decimal denotes, as numerator and denominator. -/
def ratio (d : Decimal) : Nat × Nat :=
  (d.coefficient * tenPow d.exponent.toNat * stepsPerOne, tenPow (-d.exponent).toNat)

/-- The double nearest to a decimal. Beyond four hundred places on either side the answer is known
without the powers: the coefficient is below `2 ^ (log2 coefficient + 1)`. -/
def nearest (d : Decimal) : Binary64 :=
  if d.coefficient = 0 then .signedZero d.negative
  else if 400 < d.exponent then .infinite d.negative
  else if d.exponent < -(400 + d.coefficient.log2 : Int) then .signedZero d.negative
  else .ofRatio d.negative d.ratio.1 d.ratio.2

/-- Where positional notation starts and ends, and the least number of exponent digits. -/
structure Layout where
  positionalFrom : Int
  positionalBelow : Int
  exponentDigits : Nat

def Layout.standard : Layout := ⟨-4, 16, 2⟩

/-- The digits of a coefficient without the zeros at its end. -/
def significantDigits (coefficient : Nat) : List Char :=
  ((Nat.toDigits 10 coefficient).reverse.dropWhile (· == '0')).reverse

/-- Digits with a point after the place of `10 ^ leading`'s unit, at least one on each side. -/
def positional (leading : Int) (digits : List Char) : List Char :=
  if leading < 0 then
    '0' :: '.' :: List.replicate (-leading - 1).toNat '0' ++ digits
  else
    let wholeLength := leading.toNat + 1
    let whole := digits.take wholeLength ++ List.replicate (wholeLength - digits.length) '0'
    let fraction := digits.drop wholeLength
    whole ++ '.' :: (if fraction.isEmpty then ['0'] else fraction)

def exponentText (width : Nat) (leading : Int) : List Char :=
  let digits := Nat.toDigits 10 leading.natAbs
  (if leading < 0 then '-' else '+') :: List.replicate (width - digits.length) '0' ++ digits

/-- One digit, the rest after a point if there is a rest, and the power of ten. -/
def scientific (width : Nat) (leading : Int) : List Char → List Char
  | [] => []
  | first :: rest =>
    first :: (if rest.isEmpty then [] else '.' :: rest) ++ 'e' :: exponentText width leading

def render (layout : Layout) (d : Decimal) : String :=
  let leading := d.exponent + ((Nat.toDigits 10 d.coefficient).length : Int) - 1
  let digits := significantDigits d.coefficient
  let body :=
    if d.coefficient = 0 then ['0', '.', '0']
    else if layout.positionalFrom ≤ leading ∧ leading < layout.positionalBelow then
      positional leading digits
    else scientific layout.exponentDigits leading digits
  String.ofList (if d.negative then '-' :: body else body)

end Decimal

/-- The reals that round to a double, in quarters of a step, with or without the two ends. -/
structure RoundingInterval where
  low : Nat
  high : Nat
  closed : Bool

namespace Magnitude

/-- The lower half of the interval is shorter at the start of a binade, where the grid below is
finer; the ends belong to the double with the even significand. -/
def roundingInterval (size : Magnitude) : RoundingInterval where
  low := 4 * size.units -
    (if 0 < size.grid ∧ size.units = twoPow size.units.log2 then twoPow size.grid
     else twoPow (size.grid + 1))
  high := 4 * size.units + twoPow (size.grid + 1)
  closed := size.units / twoPow size.grid % 2 == 0

end Magnitude

namespace RoundingInterval

/-- Whether a point, given as a multiple of a quarter step, lies in the interval, when the point
and the interval are both multiplied by `scale`. -/
def contains (interval : RoundingInterval) (scale point : Nat) : Bool :=
  if interval.closed then interval.low * scale ≤ point ∧ point ≤ interval.high * scale
  else interval.low * scale < point ∧ point < interval.high * scale

end RoundingInterval

namespace Decimal

/-- Places after the point on the finest decimal grid that any double needs. -/
def finestPlaces : Nat := 345

def leadingExponent (size : Magnitude) : Int :=
  let scaled := size.units * tenPow finestPlaces / stepsPerOne
  ((Nat.toDigits 10 scaled).length : Int) - 1 - finestPlaces

/-- The multiple of `10 ^ exponent` that reads back as the magnitude: the nearer of the two
neighbours, the even one of two equally near. -/
def neighbour? (size : Magnitude) (exponent : Int) : Option Nat :=
  let scale := tenPow finestPlaces
  let cell := stepsPerOne * tenPow (exponent + finestPlaces).toNat
  let below := size.units * scale / cell
  let inside := fun multiple => size.roundingInterval.contains scale (4 * multiple * cell)
  let nearest := nearestEven (size.units * scale) cell
  let other := if nearest = below then below + 1 else below
  if inside nearest then some nearest else if inside other then some other else none

/-- The shortest decimal that reads back as a nonzero magnitude; seventeen digits always do. -/
def shortest (negative : Bool) (size : Magnitude) : Decimal :=
  let leading := leadingExponent size
  let found := (List.range 17).findSome? fun (extra : Nat) =>
    (neighbour? size (leading - extra)).map fun multiple =>
      Decimal.mk negative multiple (leading - extra)
  found.getD ⟨negative, 0, 0⟩

end Decimal

namespace Binary64

def text : Binary64 → String
  | nan => "nan"
  | infinite negative => if negative then "-inf" else "inf"
  | finite negative size =>
    if size.units = 0 then Decimal.render .standard ⟨negative, 0, 0⟩
    else Decimal.render .standard (.shortest negative size)

end Binary64

end StochasticGrammar
