import JsonSchema.Number.Double

/-!
# The shortest decimal that reads back as a double

A decimal reads back as `x` when it lies in the interval of reals that round to `x`; the ends
belong to it when the last bit of `x` is zero. Among the decimals of the interval with the fewest
digits the nearest one is taken, and of two equally near ones the even one.

* `Decimal`: a whole number of units `10^exponent`;
* `Double.shortest`: the shortest decimal of a double's size;
* `Double.fractionDigits`: how many digits its positional text has after the point.
-/

namespace JsonSchema

structure Decimal where
  digits : Nat
  exponent : Int
  deriving DecidableEq, Repr

namespace Decimal

/-- Compare `c * 10^k` with `n` quarters of a unit `2^-1074`. -/
def compareQuarters (c : Nat) (k : Int) (n : Nat) : Ordering :=
  if 0 ≤ k then compare (c * Nat.pow 10 k.toNat * (4 * Double.one)) n
  else compare (c * (4 * Double.one)) (n * Nat.pow 10 (-k).toNat)

def trim : Nat → Decimal → Decimal
  | 0, d => d
  | fuel + 1, d =>
    if d.digits ≠ 0 ∧ d.digits % 10 = 0 then trim fuel ⟨d.digits / 10, d.exponent + 1⟩ else d

end Decimal

namespace Double

/-! ## The interval of reals that round to a double, in quarters of a unit -/

def lastBit (units : Nat) : Nat := Nat.pow 2 (units.log2 - 52)

/-- The lower end: half way to the next smaller size, which is nearer below a power of two. -/
def lowerEnd (units : Nat) : Nat :=
  let bit := lastBit units
  if units = bit * Nat.pow 2 52 ∧ bit ≠ 1 then 4 * units - bit else 4 * units - 2 * bit

def upperEnd (units : Nat) : Nat := 4 * units + 2 * lastBit units

def readsBack (units c : Nat) (k : Int) : Bool :=
  let ends := units / lastBit units % 2 = 0
  let low := Decimal.compareQuarters c k (lowerEnd units)
  let high := Decimal.compareQuarters c k (upperEnd units)
  (low == .gt || (low == .eq && ends)) && (high == .lt || (high == .eq && ends))

/-! ## Decimal grids -/

/-- The `e` with `10^e ≤ x < 10^(e+1)`, from the binary exponent. -/
def decimalExponent (units : Nat) : Int :=
  let guess := ((units.log2 : Int) - 1074) * 30103 / 100000
  if Decimal.compareQuarters 1 (guess + 1) (4 * units) != .gt then guess + 1 else guess

def gridBelow (units : Nat) (k : Int) : Nat :=
  if 0 ≤ k then units / (Nat.pow 10 k.toNat * one) else units * Nat.pow 10 (-k).toNat / one

/-- Whether `c * 10^k` is nearer than `(c + 1) * 10^k`, or as near and even. -/
def lowerIsNearer (units c : Nat) (k : Int) : Bool :=
  match Decimal.compareQuarters (2 * c + 1) k (8 * units) with
  | .gt => true
  | .lt => false
  | .eq => c % 2 == 0

def onGrid? (units : Nat) (k : Int) : Option Decimal :=
  let c := gridBelow units k
  match readsBack units c k, readsBack units (c + 1) k with
  | true, true => some ⟨if lowerIsNearer units c k then c else c + 1, k⟩
  | true, false => some ⟨c, k⟩
  | false, true => some ⟨c + 1, k⟩
  | false, false => none

/-- The first grid with a hit, from `10^k` down, at most `fuel + 1` of them. -/
def firstGrid (units : Nat) : Nat → Int → Decimal
  | 0, k => ⟨gridBelow units k, k⟩
  | fuel + 1, k => (onGrid? units k).getD (firstGrid units fuel (k - 1))

/-- The shortest decimal of a double's size; 17 digits always read back. -/
def shortest (x : Double) : Decimal :=
  if x.units = 0 then ⟨0, 0⟩
  else (firstGrid x.units 17 (decimalExponent x.units)).trim 320

/-- How many digits stand after the point when the shortest decimal is written positionally. -/
def fractionDigits (x : Double) : Nat := (-x.shortest.exponent).toNat

end Double

end JsonSchema
