/-!
# Sets of code points as ordered ranges

A set of code points is a list of ranges in ascending order, so a search stops at the first range
that lies above the code point. A `Stride` takes every `step`-th code point of a range.

* `inRanges`: membership in a list of ranges;
* `inStrides`: membership in a list of strides.
-/

namespace JsonSchema.Unicode

abbrev Ranges := List (Nat × Nat)

def inRanges : Ranges → Nat → Bool
  | [], _ => false
  | (low, high) :: rs, n => if n < low then false else decide (n ≤ high) || inRanges rs n

/-- Every `step`-th code point from `low` to `high`. -/
structure Stride where
  low : Nat
  high : Nat
  step : Nat

namespace Stride

def has (s : Stride) (n : Nat) : Bool :=
  decide (s.low ≤ n) && decide (n ≤ s.high) && (n - s.low) % s.step == 0

end Stride

def inStrides : List Stride → Nat → Bool
  | [], _ => false
  | s :: ss, n => if n < s.low then false else s.has n || inStrides ss n

end JsonSchema.Unicode
