import JsonSchema.Proofs.ExactValue
import JsonSchema.Proofs.SingleRule
import Mathlib.Tactic.NormNum
import Mathlib.Tactic.Ring

/-!
# Comparing numbers in different forms

A number is kept as an unsigned or a negative integer of 64 bits, or as a double with a sign, an
exponent and a fraction. Whatever the forms of two numbers, they compare as the rational numbers
that they stand for, and a bound lets through the numbers on its side.

* `Binary64.value`, `Stored.value`: the rational numbers that the forms stand for;
* `Stored.value_toNumber`: these are the exact values of the numbers;
* `Options.build_bound`: schemas of one bound;
* `Stored.compares_exactly`: comparisons and bounds are exact for all pairs of forms.
-/

namespace JsonSchema

/-! ## Forms of numbers -/

/-- A finite double as it is kept: the greatest exponent is left out, since it stands for the
infinities and for what is no number. -/
structure Binary64 where
  negative : Bool
  exponent : Fin 2047
  fraction : Fin (2 ^ 52)

namespace Binary64

/-- The fraction, with a leading one unless the exponent is zero. -/
def significand (x : Binary64) : Nat :=
  if x.exponent.val = 0 then x.fraction.val else 2 ^ 52 + x.fraction.val

/-- The rational number that a double stands for. Exponents zero and one have the same weight. -/
def value (x : Binary64) : ℚ :=
  (if x.negative then -1 else 1) * x.significand * 2 ^ ((max x.exponent.val 1 : Nat) - 1075 : ℤ)

def toDouble (x : Binary64) : Double := ⟨x.negative, x.significand * 2 ^ (x.exponent.val - 1)⟩

end Binary64

inductive Stored where
  | unsigned (n : UInt64)
  | negative (n : Int64) (h : n < 0)
  | double (x : Binary64)

namespace Stored

def value : Stored → ℚ
  | unsigned n => n.toNat
  | negative n _ => n.toInt
  | double x => x.value

def toNumber : Stored → Number
  | unsigned n => .integer n.toNat
  | negative n _ => .integer n.toInt
  | double x => .double x.toDouble

end Stored

/-! ## Exact values -/

namespace Number

theorem one_eq : (Double.one : ℚ) = 2 ^ 1074 := by
  have hcast : ∀ k, ((Nat.pow 2 k : Nat) : ℚ) = 2 ^ k := Nat.cast_pow 2
  unfold Double.one
  exact hcast 1074

theorem value_double (x : Double) :
    (double x).value = (if x.negative then -1 else 1) * x.units / 2 ^ 1074 := by
  rw [value, one_eq, signedUnits, Double.signedUnits]
  split <;> simp

theorem same_iff_value (a b : Number) : a.same b = true ↔ a.value = b.value := by
  rw [same_iff, value, value, div_left_inj' (ne_of_gt one_pos), Int.cast_inj]

end Number

theorem Binary64.value_toDouble (x : Binary64) : (Number.double x.toDouble).value = x.value := by
  have hpow : (2 : ℚ) ^ (x.exponent.val - 1) / 2 ^ 1074 =
      2 ^ ((max x.exponent.val 1 : Nat) - 1075 : ℤ) := by
    have hexponent : ((max x.exponent.val 1 : Nat) - 1075 : ℤ) =
        ((x.exponent.val - 1 : Nat) : ℤ) - (1074 : Nat) := by omega
    rw [hexponent, zpow_sub₀ two_ne_zero, zpow_natCast, zpow_natCast]
  rw [Number.value_double, value, toDouble, ← hpow]
  generalize (2 : ℚ) ^ 1074 = one
  push_cast
  ring

theorem Stored.value_toNumber (a : Stored) : a.toNumber.value = a.value := by
  cases a with
  | unsigned n => exact Number.value_integer n.toNat
  | negative n h => exact Number.value_integer n.toInt
  | double x => exact x.value_toDouble

/-! ## Bounds -/

theorem Rule.below_iff_value (a b : Number) (bound : Bool) :
    below a b bound = true ↔ if bound then a.value ≤ b.value else a.value < b.value := by
  cases bound with
  | true => exact Number.le_iff_value a b
  | false => exact Number.lt_iff_value a b

theorem Rule.fault?_minimum (limit a : Number) (exclusive : Bool) :
    (minimum limit exclusive).fault? (.number a) = none ↔
      if exclusive then limit.value < a.value else limit.value ≤ a.value := by
  have hbelow := below_iff_value a limit exclusive
  rw [fault?, demand]
  cases exclusive <;> cases hb : below a limit _ <;> simp_all

theorem Rule.fault?_maximum (limit a : Number) (exclusive : Bool) :
    (maximum limit exclusive).fault? (.number a) = none ↔
      if exclusive then a.value < limit.value else a.value ≤ limit.value := by
  have hbelow := below_iff_value limit a exclusive
  rw [fault?, demand]
  cases exclusive <;> cases hb : below limit a _ <;> simp_all

/-- A schema with nothing but a bound, of which it may be said whether it is exclusive. -/
def Json.bound (keyword exclusiveKeyword : String) (limit : Number) (exclusive : Option Bool) :
    Json :=
  .object ((keyword, .number limit) :: exclusive.toList.map fun b => (exclusiveKeyword, .bool b))

theorem Options.build_bound {o : Options} {k : Keyword} {exclusiveKeyword : String}
    {rule : Number → Bool → Rule}
    (hk : k = .minimum ∧ exclusiveKeyword = "exclusiveMinimum" ∧ rule = .minimum ∨
      k = .maximum ∧ exclusiveKeyword = "exclusiveMaximum" ∧ rule = .maximum)
    (ho : o.keywords.lookup k.name = none) (he : o.keywords.lookup exclusiveKeyword = none)
    (limit : Number) (exclusive : Option Bool) :
    ∃ w, o.build (Json.bound k.name exclusiveKeyword limit exclusive) = .ok w ∧
      w.root.HasOnly (rule limit (exclusive.getD false)) := by
  refine ⟨⟨.mk { location := [] } []
    [.rule (rule limit (exclusive.getD false)) [.name k.name]], [],
    Json.bound k.name exclusiveKeyword limit exclusive, o⟩, ?_, rfl, _, rfl⟩
  have hknown : Keyword.isKnown k.name = true := Keyword.isKnown_name k
  have hexclusive : Keyword.isKnown exclusiveKeyword = true := by
    rcases hk with ⟨-, rfl, -⟩ | ⟨-, rfl, -⟩ <;> decide
  rw [build, compile, compileNode_eq]
  rcases hk with ⟨rfl, rfl, rfl⟩ | ⟨rfl, rfl, rfl⟩ <;> rw [Keyword.name] at *
  all_goals
    cases exclusive with
    | none =>
      simp [Json.bound, Compiler.schema, Compiler.object, Plan.compiler, checkKeywords, hknown,
        readHeading, readDeclaredType, readRequired, tuple?, List.lookup_cons, Keyword.inOrder,
        Keyword.name, ho, Compiler.parts, customChecks, Compiler.keyword, Keyword.rule?, readBound]
      rfl
    | some b =>
      simp [Json.bound, Compiler.schema, Compiler.object, Plan.compiler, checkKeywords, hknown,
        hexclusive, readHeading, readDeclaredType, readRequired, tuple?, List.lookup_cons,
        Keyword.inOrder, Keyword.name, ho, he, Compiler.parts, customChecks, Compiler.keyword,
        Keyword.rule?, readBound]
      rfl

/-! ## Comparison -/

/-- A schema of a lower bound lets the numbers through that are on its right. -/
theorem Options.accepts_minimum {o : Options} (ho : o.keywords.lookup "minimum" = none)
    (he : o.keywords.lookup "exclusiveMinimum" = none) (limit : Stored) (exclusive : Option Bool) :
    ∃ w, o.build (Json.bound "minimum" "exclusiveMinimum" limit.toNumber exclusive) = .ok w ∧
      ∀ a : Stored, w.isValid (.number a.toNumber) = true ↔
        if exclusive.getD false then limit.value < a.value else limit.value ≤ a.value := by
  obtain ⟨w, hbuild, honly⟩ :=
    build_bound (k := .minimum) (.inl ⟨rfl, rfl, rfl⟩) ho he limit.toNumber exclusive
  refine ⟨w, hbuild, fun a => ?_⟩
  rw [honly.isValid_iff, Rule.fault?_minimum, a.value_toNumber, limit.value_toNumber]

/-- A schema of an upper bound lets the numbers through that are on its left. -/
theorem Options.accepts_maximum {o : Options} (ho : o.keywords.lookup "maximum" = none)
    (he : o.keywords.lookup "exclusiveMaximum" = none) (limit : Stored) (exclusive : Option Bool) :
    ∃ w, o.build (Json.bound "maximum" "exclusiveMaximum" limit.toNumber exclusive) = .ok w ∧
      ∀ a : Stored, w.isValid (.number a.toNumber) = true ↔
        if exclusive.getD false then a.value < limit.value else a.value ≤ limit.value := by
  obtain ⟨w, hbuild, honly⟩ :=
    build_bound (k := .maximum) (.inr ⟨rfl, rfl, rfl⟩) ho he limit.toNumber exclusive
  refine ⟨w, hbuild, fun a => ?_⟩
  rw [honly.isValid_iff, Rule.fault?_maximum, a.value_toNumber, limit.value_toNumber]

/-- Numbers of any two forms compare as the rational numbers that they stand for, and so a bound,
exclusive or not, lets exactly the numbers on its side through. -/
theorem Stored.compares_exactly {o : Options}
    (ho : ∀ k ∈ ["minimum", "exclusiveMinimum", "maximum", "exclusiveMaximum"],
      o.keywords.lookup k = none) :
    (∀ a b : Stored,
      (a.toNumber.lt b.toNumber = true ↔ a.value < b.value) ∧
      (a.toNumber.le b.toNumber = true ↔ a.value ≤ b.value) ∧
      (b.toNumber.lt a.toNumber = true ↔ a.value > b.value) ∧
      (b.toNumber.le a.toNumber = true ↔ a.value ≥ b.value) ∧
      (a.toNumber.same b.toNumber = true ↔ a.value = b.value)) ∧
    ∀ (limit : Stored) (exclusive : Option Bool),
      (∃ w, o.build (Json.bound "minimum" "exclusiveMinimum" limit.toNumber exclusive) = .ok w ∧
        ∀ a : Stored, w.isValid (.number a.toNumber) = true ↔
          if exclusive.getD false then limit.value < a.value else limit.value ≤ a.value) ∧
      ∃ w, o.build (Json.bound "maximum" "exclusiveMaximum" limit.toNumber exclusive) = .ok w ∧
        ∀ a : Stored, w.isValid (.number a.toNumber) = true ↔
          if exclusive.getD false then a.value < limit.value else a.value ≤ limit.value := by
  refine ⟨fun a b => ?_, fun limit exclusive => ⟨?_, ?_⟩⟩
  · rw [← a.value_toNumber, ← b.value_toNumber]
    exact ⟨Number.lt_iff_value _ _, Number.le_iff_value _ _, Number.lt_iff_value _ _,
      Number.le_iff_value _ _, Number.same_iff_value _ _⟩
  · exact Options.accepts_minimum (ho _ (by simp)) (ho _ (by simp)) limit exclusive
  · exact Options.accepts_maximum (ho _ (by simp)) (ho _ (by simp)) limit exclusive

/-- The double `2^53` is below the integer `2^53 + 1`, the integer `2^64 - 1` is below the double
`2^64`, zero is the same with either sign, and a lower bound of `2^53 + 1` keeps `2^53` out. -/
theorem Stored.compares_exactly_past_doubles :
    (Stored.double ⟨false, 1076, 0⟩).toNumber.lt
      (Stored.unsigned 9007199254740993).toNumber = true ∧
    (Stored.unsigned 18446744073709551615).toNumber.lt
      (Stored.double ⟨false, 1087, 0⟩).toNumber = true ∧
    (Stored.double ⟨true, 0, 0⟩).toNumber.same (Stored.unsigned 0).toNumber = true ∧
    ∃ w, ({} : Options).build
        (Json.bound "minimum" "exclusiveMinimum" (.integer 9007199254740993) none) = .ok w ∧
      w.isValid (.number (Stored.double ⟨false, 1076, 0⟩).toNumber) = false := by
  have hexponents : ((1076 : Fin 2047) : Nat) = 1076 ∧ ((1087 : Fin 2047) : Nat) = 1087 := by decide
  have hsizes : UInt64.toNat 9007199254740993 = 9007199254740993 ∧
      UInt64.toNat 18446744073709551615 = 18446744073709551615 := by decide
  have htwo53 : (Stored.double ⟨false, 1076, 0⟩).value = 9007199254740992 := by
    norm_num [value, Binary64.value, Binary64.significand, hexponents]
  have htwo64 : (Stored.double ⟨false, 1087, 0⟩).value = 18446744073709551616 := by
    norm_num [value, Binary64.value, Binary64.significand, hexponents]
  have hzero : (Stored.double ⟨true, 0, 0⟩).value = 0 := by
    norm_num [value, Binary64.value, Binary64.significand]
  obtain ⟨hcompare, hbounds⟩ := compares_exactly (o := {}) fun _ _ => rfl
  obtain ⟨w, hbuild, hvalid⟩ := (hbounds (.unsigned 9007199254740993) none).1
  refine ⟨(hcompare _ _).1.2 ?_, (hcompare _ _).1.2 ?_, (hcompare _ _).2.2.2.2.2 ?_, w, hbuild,
    Bool.eq_false_iff.2 fun h => ?_⟩
  · rw [htwo53]
    norm_num [value, hsizes]
  · rw [htwo64]
    norm_num [value, hsizes]
  · rw [hzero]
    norm_num [value]
  · have := (hvalid _).1 h
    rw [htwo53] at this
    norm_num [value, hsizes] at this

end JsonSchema
