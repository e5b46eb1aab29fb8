import JsonSchema.Proofs.Meaning
import Mathlib.Algebra.Order.Field.Basic
import Mathlib.Tactic.Ring

/-!
# Multiples

The check of `multipleOf` finds the multiples of its divisor by exact values. A whole divisor below
`2^64` divides exact integers exactly. A double is divided by the double that is nearest to the
divisor. This is the divisor itself if it has no more than 53 significant bits, as it has whenever
it was written as a double. Any other divisor divides on its decimal grid.

* `Significant`: the numbers that a double can hold;
* `Division.rounded_iff_exact`: where the rounding makes no difference;
* `Extended.exceeds_powerOfTen`: powers of ten are ordered as their exponents, up to the infinite
  ones;
* `Divisor.divides_iff`: what a divisor divides.
-/

namespace JsonSchema

/-- The number has at most 53 significant bits, as the numbers of units of all doubles do. -/
def Significant (n : Nat) : Prop := ∃ m e, m < Nat.pow 2 53 ∧ n = m * Nat.pow 2 e

/-! ## Rounding -/

theorem roundHalfEven_of_dvd {num den : Nat} (hden : 0 < den) (h : den ∣ num) :
    roundHalfEven num den = num / den := by
  have hmod : num % den = 0 := Nat.mod_eq_zero_of_dvd h
  simp [roundHalfEven, hmod, hden]

/-- Rounding keeps the numbers that need no rounding. -/
theorem Significant.roundUnits_eq {n : Nat} (h : Significant n) : roundUnits n 1 = n := by
  obtain ⟨m, e, hm, hn⟩ := h
  have hdvd : Nat.pow 2 (n.log2 - 52) ∣ n := by
    by_cases hzero : n = 0
    · simp [hzero]
    have hlt : n < 2 ^ (53 + e) := by
      rw [hn, pow_add]
      exact Nat.mul_lt_mul_of_pos_right hm (Nat.two_pow_pos e)
    have hlog : n.log2 < 53 + e := (Nat.log2_lt hzero).2 hlt
    have hpow : 2 ^ (n.log2 - 52) ∣ 2 ^ e := pow_dvd_pow 2 (by omega)
    exact hn ▸ hpow.mul_left m
  have hpos : 0 < Nat.pow 2 (n.log2 - 52) := Nat.two_pow_pos _
  rw [roundUnits, Nat.div_one, Nat.one_mul, roundHalfEven_of_dvd hpos hdvd,
    Nat.div_mul_cancel hdvd]

/-- The units in one are a power of two; which one does not matter here. -/
theorem Double.one_eq_pow : ∃ k, Double.one = Nat.pow 2 k := by
  unfold Double.one
  exact ⟨1074, rfl⟩

theorem Significant.mul_one {n : Nat} (h : Significant n) : Significant (n * Double.one) := by
  obtain ⟨m, e, hm, rfl⟩ := h
  obtain ⟨k, hk⟩ := Double.one_eq_pow
  refine ⟨m, e + k, hm, ?_⟩
  rw [hk]
  show m * 2 ^ e * 2 ^ k = m * 2 ^ (e + k)
  rw [pow_add, mul_assoc]

/-- An integer whose units are those of a double. -/
theorem Significant.of_mul_one {n : Nat} (h : Significant (n * Double.one)) : Significant n := by
  obtain ⟨m, e, hm, he⟩ := h
  obtain ⟨k, hk⟩ := Double.one_eq_pow
  rw [hk] at he
  have he : n * 2 ^ k = m * 2 ^ e := he
  rcases Nat.le_total k e with hle | hle
  · refine ⟨m, e - k, hm, ?_⟩
    rw [← Nat.sub_add_cancel hle, pow_add, ← mul_assoc] at he
    exact Nat.eq_of_mul_eq_mul_right (Nat.two_pow_pos k) he
  · refine ⟨n, 0, ?_, (Nat.mul_one n).symm⟩
    rw [← Nat.sub_add_cancel hle, pow_add, ← mul_assoc] at he
    have hnm := Nat.eq_of_mul_eq_mul_right (Nat.two_pow_pos e) he
    calc n ≤ n * 2 ^ (k - e) := Nat.le_mul_of_pos_right n (Nat.two_pow_pos _)
      _ < Nat.pow 2 53 := hnm ▸ hm

/-! ## Values of doubles -/

namespace Double

/-- The double has at most 53 significant bits, as every finite one. -/
def Fits (x : Double) : Prop := Significant x.units

/-- The double nearest to an integer that needs no rounding. -/
theorem ofInt_units {n : Nat} (h : Significant n) : (ofInt n).units = n * one := by
  simp [ofInt, h.mul_one.roundUnits_eq]

theorem ofInt_signedUnits (n : Nat) : (ofInt n).signedUnits = (ofInt n).units := by
  simp [ofInt, signedUnits]

theorem value_ofInt {n : Nat} (h : Significant n) : (Number.double (ofInt n)).value = n := by
  show ((ofInt n).signedUnits : ℚ) / one = n
  rw [ofInt_signedUnits, ofInt_units h]
  push_cast
  rw [mul_div_assoc, div_self (ne_of_gt Number.one_pos), mul_one]

theorem units_of_value {x : Double} {n : Nat} (h : (Number.double x).value = n) :
    x.units = n * one := by
  have hunits : x.signedUnits = (n * one : Nat) := by
    have h : ((Number.double x).signedUnits : ℚ) = n * one :=
      (div_eq_iff (ne_of_gt Number.one_pos)).1 h
    exact_mod_cast h
  rw [signedUnits] at hunits
  split at hunits <;> omega

/-- An integer that was written as a double needs no rounding. -/
theorem Fits.significant {x : Double} {n : Nat} (hx : x.Fits)
    (h : (Number.double x).value = n) : Significant n :=
  .of_mul_one (units_of_value h ▸ hx)

theorem dvd_signedUnits {x : Double} {n : Nat} : (n : Int) ∣ x.signedUnits ↔ n ∣ x.units := by
  rw [signedUnits]
  split
  · rw [Int.dvd_neg, Int.natCast_dvd_natCast]
  · rw [Int.natCast_dvd_natCast]

theorem one_pos : 0 < one := by exact_mod_cast Number.one_pos

theorem abs_value (x : Double) : |(Number.double x).value| = (x.units : ℚ) / one := by
  have habs : |(x.signedUnits : ℚ)| = x.units := by
    rw [signedUnits]
    split <;> simp
  show |(x.signedUnits : ℚ) / one| = _
  rw [abs_div, habs, abs_of_pos Number.one_pos]

theorem nearest_eq (x : Double) : x.nearest = Extended.wholeSize x := by
  have h : (x.units : ℚ) / one + 1 / 2 = ((2 * x.units + one : Nat) : ℚ) / (2 * one : Nat) := by
    have hone := ne_of_gt Number.one_pos
    push_cast
    field_simp
  rw [nearest, abs_value, round_eq, h, Rat.floor_natCast_div_natCast]
  rfl

end Double

namespace Number

/-- The multiples of a number, in units. -/
theorem exists_value_iff {a b : Number} :
    (∃ k : Int, a.value = k * b.value) ↔ b.signedUnits ∣ a.signedUnits := by
  refine exists_congr fun k => ?_
  rw [value, value, ← mul_div_assoc, div_left_inj' (ne_of_gt one_pos), mul_comm]
  exact_mod_cast Iff.rfl

theorem isWhole_integer {m : Int} {n : Nat} : (integer m).IsWhole n ↔ m = n := by
  rw [IsWhole, value_integer, integer.injEq]
  constructor
  · rintro (h | ⟨_, h⟩)
    · exact h
    · exact_mod_cast h
  · exact .inl

theorem isWhole_double {x : Double} (hpos : 0 < x.signedUnits) {n : Nat} :
    (double x).IsWhole n ↔ n < UInt64.size ∧ x.isWhole = true ∧ x.truncate = n := by
  have hunits : x.signedUnits = x.units := by
    rw [Double.signedUnits] at hpos ⊢
    split at hpos
    · omega
    · simp_all
  have hvalue : (double x).value = n ↔ x.units = n * Double.one := by
    refine ⟨Double.units_of_value, fun h => ?_⟩
    show (x.signedUnits : ℚ) / Double.one = n
    rw [hunits, h]
    push_cast
    rw [mul_div_assoc, div_self (ne_of_gt one_pos), mul_one]
  rw [IsWhole, hvalue, Double.isWhole, Double.truncate, beq_iff_eq]
  simp only [reduceCtorEq, false_or, and_congr_right_iff]
  intro _
  constructor
  · intro h
    rw [h]
    exact ⟨Nat.mul_mod_left n _, Nat.mul_div_cancel n Double.one_pos⟩
  · rintro ⟨hmod, rfl⟩
    exact (Nat.div_mul_cancel (Nat.dvd_of_mod_eq_zero hmod)).symm

end Number

/-! ## Whole divisors -/

namespace Division

variable {n : Nat}

/-- Rounding makes no difference to integers, nor to a divisor that a double can hold. -/
theorem rounded_iff_exact {a : Number} (h : Significant n ∨ ∀ x, a ≠ .double x) :
    rounded n a ↔ exact n a := by
  cases a with
  | integer m => exact Iff.rfl
  | double x =>
    have hn : Significant n := h.resolve_right fun h => h x rfl
    rw [rounded, exact, Double.value_ofInt hn]
    constructor
    · exact And.right
    · rintro ⟨k, hk⟩
      exact ⟨⟨k * n, by rw [hk]; push_cast; rfl⟩, k, hk⟩

end Division

namespace Divisor

variable {n : Nat}

theorem wholeDivides_integer (m : Int) :
    wholeDivides n (.integer m) = true ↔ ∃ k : Int, (Number.integer m).value = k * n := by
  rw [wholeDivides, beq_iff_eq, ← Nat.dvd_iff_mod_eq_zero, ← Int.natCast_dvd, Number.value_integer]
  refine exists_congr fun k => ?_
  rw [mul_comm]
  exact_mod_cast Iff.rfl

/-- A double is divided by the double nearest to the divisor. -/
theorem wholeDivides_double (x : Double) :
    wholeDivides n (.double x) = true ↔
      (∃ j : Int, (Number.double x).value = j) ∧
        ∃ k : Int, (Number.double x).value = k * (Number.double (.ofInt n)).value := by
  rw [wholeDivides, Bool.and_eq_true, beq_iff_eq, ← Nat.dvd_iff_mod_eq_zero,
    ← Number.isInteger_iff_value, Number.exists_value_iff]
  show _ ↔ x.isWhole = true ∧ (Double.ofInt n).signedUnits ∣ x.signedUnits
  rw [Double.ofInt_signedUnits, Double.dvd_signedUnits]

theorem wholeDivides_iff (a : Number) : wholeDivides n a = true ↔ Division.rounded n a := by
  cases a with
  | integer m => exact wholeDivides_integer m
  | double x => exact wholeDivides_double x

/-- If the divisor needs no rounding, doubles are divided by the divisor itself. -/
theorem wholeDivides_of_significant (hn : Significant n) (a : Number) :
    wholeDivides n a = true ↔ ∃ k : Int, a.value = k * n :=
  (wholeDivides_iff a).trans (Division.rounded_iff_exact (.inl hn))

/-- The two ways to write a whole divisor. -/
theorem ofNumber?_eq_whole {d : Number} (hpos : 0 < n) (hlt : n < UInt64.size)
    (hd : d = .integer n ∨ ∃ x, d = .double x ∧ d.value = n) : ofNumber? d = some (whole n) := by
  rcases hd with rfl | ⟨x, rfl, hx⟩
  · simp [ofNumber?, hpos]
  have hsign : 0 < x.signedUnits := by
    show 0 < (Number.double x).signedUnits
    rw [Number.pos_iff_value, hx]
    exact_mod_cast hpos
  obtain ⟨-, hwhole, htruncate⟩ := (Number.isWhole_double hsign).1 (.inr ⟨hlt, hx⟩)
  rw [ofNumber?, if_pos hsign, if_pos ⟨hwhole, htruncate ▸ hlt⟩, htruncate]

end Divisor

/-! ## Fractional divisors -/

namespace Extended

theorem remainderIsZero_iff (a b : Extended) :
    a.remainderIsZero b = true ↔ a.LeavesNothing b := by
  cases a with
  | finite x =>
    cases b with
    | finite y =>
      rw [remainderIsZero, LeavesNothing, Double.nearest_eq, Double.nearest_eq,
        Int.natCast_dvd_natCast, Nat.dvd_iff_mod_eq_zero]
      simp
    | infinite s => simp [remainderIsZero, LeavesNothing, Double.nearest_eq]
    | undefined => simp [remainderIsZero, LeavesNothing]
  | infinite s => simp [remainderIsZero, LeavesNothing]
  | undefined => simp [remainderIsZero, LeavesNothing]

/-! ### Powers of ten -/

theorem exceeds_trans {a b c : Extended} (hab : a.exceeds b = true) (hbc : b.exceeds c = true) :
    a.exceeds c = true := by
  cases a with
  | finite x =>
    cases b <;> cases c <;> simp_all [exceeds]
    omega
  | infinite negative => cases negative <;> cases b <;> cases c <;> simp_all [exceeds]
  | undefined => simp [exceeds] at hab

theorem exceeds_asymm {a b : Extended} (h : a.exceeds b = true) : b.exceeds a = false := by
  cases a <;> cases b <;> simp_all [exceeds]
  omega

/-- The powers of ten from one on, so many of them, each exceed the one before. -/
def ascends : Nat → Nat → Bool
  | 0, _ => true
  | count + 1, digits =>
    (powerOfTen (digits + 1)).exceeds (powerOfTen digits) && ascends count (digits + 1)

theorem exceeds_succ_of_ascends {count digits : Nat} (h : ascends count digits = true) :
    ∀ i < count, (powerOfTen (digits + i + 1)).exceeds (powerOfTen (digits + i)) = true := by
  induction count generalizing digits with
  | zero => simp
  | succ count ih =>
    rw [ascends, Bool.and_eq_true] at h
    intro i hi
    cases i with
    | zero => exact h.1
    | succ i =>
      have := ih h.2 i (Nat.lt_of_succ_lt_succ hi)
      rwa [Nat.add_right_comm digits 1 i] at this

theorem powerOfTen_exceeds_succ {i : Nat} (h : i < 309) :
    (powerOfTen (i + 1)).exceeds (powerOfTen i) = true := by
  have hascends : ascends 309 0 = true := by decide +kernel
  simpa using exceeds_succ_of_ascends hascends i h

theorem powerOfTen_exceeds {i j : Nat} (hji : j < i) (hi : i ≤ 309) :
    (powerOfTen i).exceeds (powerOfTen j) = true := by
  induction hji with
  | refl => exact powerOfTen_exceeds_succ (by omega)
  | step hlt ih => exact exceeds_trans (powerOfTen_exceeds_succ (by omega)) (ih (by omega))

/-- The larger powers are infinite, as far as the digits of doubles go. -/
theorem powerOfTen_infinite {i : Nat} (h : 309 ≤ i) (hi : i ≤ 341) :
    powerOfTen i = infinite false := by
  have hpowers : ∀ k < 33, powerOfTen (309 + k) = infinite false := by decide +kernel
  have hk := hpowers (i - 309) (by omega)
  rwa [Nat.add_sub_cancel' h] at hk

theorem powerOfTen_min {i : Nat} (hi : i ≤ 341) : powerOfTen (min i 309) = powerOfTen i := by
  rcases Nat.le_total i 309 with h | h
  · rw [Nat.min_eq_left h]
  · rw [Nat.min_eq_right h, powerOfTen_infinite h hi, powerOfTen_infinite (le_refl _) (by omega)]

theorem exceeds_powerOfTen {i j : Nat} (hi : i ≤ 341) (hj : j ≤ 341) :
    (powerOfTen i).exceeds (powerOfTen j) = true ↔ j < i ∧ j < 309 := by
  rw [← powerOfTen_min hi, ← powerOfTen_min hj]
  rcases Nat.lt_trichotomy (min j 309) (min i 309) with h | h | h
  · have := powerOfTen_exceeds h (by omega)
    simp only [this, true_iff]
    omega
  · have hself : (powerOfTen (min j 309)).exceeds (powerOfTen (min j 309)) = false := by
      rw [← Bool.not_eq_true]
      intro hself
      rw [exceeds_asymm hself] at hself
      cases hself
    rw [← h, hself]
    simp only [Bool.false_eq_true, false_iff]
    omega
  · rw [exceeds_asymm (powerOfTen_exceeds h (by omega))]
    simp only [Bool.false_eq_true, false_iff]
    omega

end Extended

/-! ### Digits after the point -/

namespace Decimal

theorem exponent_le_trim (fuel : Nat) (d : Decimal) : d.exponent ≤ (d.trim fuel).exponent := by
  induction fuel generalizing d with
  | zero => exact le_refl _
  | succ fuel ih =>
    rw [trim]
    split
    · exact (Int.le_add_one (le_refl _)).trans (ih _)
    · exact le_refl _

end Decimal

namespace Double

theorem exponent_of_onGrid? {units : Nat} {k : Int} {d : Decimal} (h : onGrid? units k = some d) :
    d.exponent = k := by
  rw [onGrid?] at h
  split at h <;> cases h <;> rfl

theorem le_exponent_firstGrid (units fuel : Nat) (k : Int) :
    k - fuel ≤ (firstGrid units fuel k).exponent := by
  induction fuel generalizing k with
  | zero => simp [firstGrid]
  | succ fuel ih =>
    rw [firstGrid]
    cases h : onGrid? units k with
    | none =>
      have := ih (k - 1)
      simp only [Option.getD_none]
      omega
    | some d =>
      rw [Option.getD_some, exponent_of_onGrid? h]
      omega

theorem le_decimalExponent (units : Nat) : -324 ≤ decimalExponent units := by
  rw [decimalExponent]
  split <;> omega

/-- No double has more digits after the point. -/
theorem fractionDigits_le (x : Double) : x.fractionDigits ≤ 341 := by
  have h : -341 ≤ x.shortest.exponent := by
    rw [shortest]
    split
    · simp
    · have htrim := Decimal.exponent_le_trim 320 (firstGrid x.units 17 (decimalExponent x.units))
      have hgrid := le_exponent_firstGrid x.units 17 (decimalExponent x.units)
      have hexponent := le_decimalExponent x.units
      push_cast at hgrid
      omega
  rw [fractionDigits]
  omega

end Double

/-! ### Divisors -/

namespace Divisor

/-- With an infinite power of ten, nothing is a multiple. -/
theorem not_leavesNothing_infinite (x : Double) (b : Extended) :
    ¬((Extended.infinite false).mul (.finite x)).LeavesNothing b := by
  show ¬Extended.LeavesNothing (if x.units = 0 then _ else _) b
  split <;> exact id

/-- A divisor that is no whole number divides on its decimal grid. -/
theorem gridDivides_iff (d x : Double) : gridDivides d x = true ↔ x.IsOnGrid d := by
  have hwhole : x.isWhole = true ↔ ∃ k : Int, (Number.double x).value = k :=
    Number.isInteger_iff_value (.double x)
  have hexceeds := Extended.exceeds_powerOfTen x.fractionDigits_le d.fractionDigits_le
  rw [Double.IsOnGrid, ← hwhole, ← Extended.remainderIsZero_iff]
  set leavesNothing := (x.shifted d.fractionDigits).remainderIsZero (d.shifted d.fractionDigits)
    with hdef
  show (!(!x.isWhole && _) && leavesNothing) = true ↔ _
  by_cases hd : d.fractionDigits < 309
  · simp only [hd, and_true] at hexceeds
    cases hx : x.isWhole
    · simp [← Bool.not_eq_true, hexceeds]
    · simp
  · have hfalse : leavesNothing = false := by
      rw [← Bool.not_eq_true, hdef, Extended.remainderIsZero_iff, Double.shifted,
        Extended.powerOfTen_infinite (by omega) d.fractionDigits_le]
      exact not_leavesNothing_infinite x _
    simp [hfalse]

theorem isWhole_of_ofNumber? {n : Number} {m : Nat} (h : ofNumber? n = some (whole m)) (k : Nat) :
    n.IsWhole k ↔ k = m := by
  cases n with
  | integer i =>
    simp only [ofNumber?, Option.ite_none_right_eq_some, Option.some.injEq, whole.injEq] at h
    rw [Number.isWhole_integer]
    omega
  | double x =>
    simp only [ofNumber?, Option.ite_none_right_eq_some, Option.some.injEq] at h
    obtain ⟨hpos, h⟩ := h
    rw [Number.isWhole_double hpos]
    split at h
    · next hwhole =>
      cases h
      constructor
      · exact fun h => h.2.2.symm
      · rintro rfl
        exact ⟨hwhole.2, hwhole.1, rfl⟩
    · cases h

theorem not_isWhole_of_ofNumber? {n : Number} {x : Double}
    (h : ofNumber? n = some (fractional x)) : n = .double x ∧ ∀ k, ¬n.IsWhole k := by
  cases n with
  | integer i => simp [ofNumber?] at h
  | double y =>
    simp only [ofNumber?, Option.ite_none_right_eq_some, Option.some.injEq] at h
    obtain ⟨hpos, h⟩ := h
    split at h
    · cases h
    · next hwhole =>
      cases h
      refine ⟨rfl, fun k hk => hwhole ?_⟩
      obtain ⟨hlt, hy, rfl⟩ := (Number.isWhole_double hpos).1 hk
      exact ⟨hy, hlt⟩

/-- **A divisor divides its multiples.** -/
theorem divides_iff {n : Number} {d : Divisor} (h : ofNumber? n = some d) (a : Number) :
    d.divides a = true ↔ n.IsMultiple .rounded a := by
  cases d with
  | whole m =>
    rw [divides, wholeDivides_iff, Number.IsMultiple]
    simp only [isWhole_of_ofNumber? h, forall_eq]
    exact ⟨fun ha => ⟨ha, fun x _ hx => hx.elim⟩, And.left⟩
  | fractional x =>
    obtain ⟨rfl, hx⟩ := not_isWhole_of_ofNumber? h
    rw [divides, gridDivides_iff, Number.IsMultiple]
    constructor
    · intro ha
      refine ⟨fun k hk => absurd hk (hx k), ?_⟩
      rintro _ ⟨⟩ _
      exact ha
    · exact fun ha => ha.2 x rfl hx

end Divisor

end JsonSchema
