import JsonSchema.Number.Basic
import Mathlib.Algebra.Order.Field.Basic
import Mathlib.Data.Rat.Cast.Order

/-!
# Exact values of numbers

The rational number that a JSON number stands for. Comparison and integrality, which count units of
`2^-1074`, are those of the exact values.

* `Number.value`: the exact value, which is the integer itself for an exact integer;
* `Number.le_iff_value`, `lt_iff_value`, `isInteger_iff_value`: what the counts of units decide.
-/

namespace JsonSchema.Number

/-- The rational number that a JSON number stands for. -/
def value (a : Number) : ℚ := a.signedUnits / Double.one

theorem one_pos : (0 : ℚ) < Double.one := by
  have hpow : ∀ n, 0 < Nat.pow 2 n := Nat.two_pow_pos
  have h : 0 < Double.one := by
    unfold Double.one
    exact hpow 1074
  exact_mod_cast h

theorem value_integer (n : Int) : (integer n).value = n := by
  have h : (Double.one : ℚ) ≠ 0 := ne_of_gt one_pos
  rw [value, signedUnits]
  push_cast
  rw [mul_div_assoc, div_self h, mul_one]

theorem le_iff_value (a b : Number) : a.le b = true ↔ a.value ≤ b.value := by
  rw [le_iff, value, value, div_le_div_iff_of_pos_right one_pos, Int.cast_le]

theorem lt_iff_value (a b : Number) : a.lt b = true ↔ a.value < b.value := by
  rw [lt_iff, value, value, div_lt_div_iff_of_pos_right one_pos, Int.cast_lt]

theorem nonneg_iff_value (a : Number) : 0 ≤ a.signedUnits ↔ 0 ≤ a.value := by
  rw [value, le_div_iff₀ one_pos, zero_mul, Int.cast_nonneg_iff]

theorem pos_iff_value (a : Number) : 0 < a.signedUnits ↔ 0 < a.value := by
  rw [value, lt_div_iff₀ one_pos, zero_mul, Int.cast_pos]

theorem isInteger_iff_value (a : Number) : a.isInteger = true ↔ ∃ n : Int, a.value = n := by
  rw [isInteger_iff]
  refine exists_congr fun n => ?_
  rw [value, div_eq_iff (ne_of_gt one_pos)]
  constructor
  · intro h
    rw [h]
    push_cast
    rfl
  · intro h
    exact_mod_cast h

end JsonSchema.Number
