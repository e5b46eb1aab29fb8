import JsonSchema.Number.Basic
import JsonSchema.Number.Shortest

/-!
# Divisibility of numbers

A whole divisor below `2^64` divides exactly. Any other positive double divides on the decimal
grid of its own digits: both sides are scaled by the power of ten that makes the divisor whole,
rounded to integers in double arithmetic, and the remainder is taken there.

* `Extended`: a finite double, an infinity or no number, with the product of doubles;
* `Divisor.divides`: whether a number is a multiple of a divisor.
-/

namespace JsonSchema

/-- What a product of doubles can be. -/
inductive Extended where
  | finite (x : Double)
  | infinite (negative : Bool)
  | undefined
  deriving DecidableEq, Repr

namespace Extended

def mul : Extended → Extended → Extended
  | finite x, finite y =>
    match Double.ofUnits? (x.negative != y.negative) (x.units * y.units) Double.one with
    | some z => finite z
    | none => infinite (x.negative != y.negative)
  | finite x, infinite s => if x.units = 0 then undefined else infinite (x.negative != s)
  | infinite s, finite y => if y.units = 0 then undefined else infinite (s != y.negative)
  | infinite s, infinite t => infinite (s != t)
  | _, _ => undefined

/-- `base^exponent` by repeated squaring, each product rounded; `fuel` bounds the squarings. -/
def power (fuel : Nat) (result base : Extended) (exponent : Nat) : Extended :=
  match fuel with
  | 0 => result
  | fuel + 1 =>
    let result := if exponent % 2 = 1 then result.mul base else result
    if exponent / 2 = 0 then result else power fuel result (base.mul base) (exponent / 2)

def powerOfTen (digits : Nat) : Extended :=
  power 16 (finite (.ofInt 1)) (finite (.ofInt 10)) digits

def exceeds : Extended → Extended → Bool
  | finite x, finite y => decide (y.signedUnits < x.signedUnits)
  | infinite false, finite _ => true
  | _, _ => false

/-- The size rounded to a whole number of units `1`, a half going away from zero. -/
def wholeSize (x : Double) : Nat := (2 * x.units + Double.one) / (2 * Double.one)

def remainderIsZero : Extended → Extended → Bool
  | finite x, finite y => wholeSize y != 0 && wholeSize x % wholeSize y == 0
  | finite x, infinite _ => wholeSize x == 0
  | _, _ => false

end Extended

/-! ## Divisors -/

/-- A positive divisor: a whole number, or a double that is no whole number below `2^64`. -/
inductive Divisor where
  | whole (n : Nat)
  | fractional (x : Double)
  deriving DecidableEq, Repr

namespace Divisor

def ofNumber? : Number → Option Divisor
  | .integer n => if 0 < n then some (whole n.toNat) else none
  | .double x =>
    if 0 < x.signedUnits then
      some (if x.isWhole ∧ x.truncate < UInt64.size then whole x.truncate else fractional x)
    else none

/-- Divisibility by a whole number; a double is divided by the nearest double. -/
def wholeDivides (n : Nat) : Number → Bool
  | .integer m => m.natAbs % n == 0
  | .double x => x.isWhole && x.units % (Double.ofInt n).units == 0

/-- Divisibility on the decimal grid of the divisor. -/
def gridDivides (d x : Double) : Bool :=
  let factor := Extended.powerOfTen d.fractionDigits
  let finer := !x.isWhole && (Extended.powerOfTen x.fractionDigits).exceeds factor
  !finer && (factor.mul (.finite x)).remainderIsZero (factor.mul (.finite d))

def divides : Divisor → Number → Bool
  | whole n, x => wholeDivides n x
  | fractional d, x => gridDivides d x.toDouble

end Divisor

end JsonSchema
