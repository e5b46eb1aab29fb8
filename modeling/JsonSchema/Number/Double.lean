/-!
# Finite doubles as whole numbers of `2^-1074`

Every finite double is a whole number of units `2^-1074`, so a double is kept as a sign and that
number. Order, divisibility and integrality are then facts about `Nat` and `Int`.

* `roundHalfEven` rounds a quotient to the nearest whole number, a half to the even one;
* `roundUnits` rounds a quotient of units to 53 significant bits;
* `Double.isWhole_iff`: a double is whole when a unit count of some integer equals its own.
-/

namespace JsonSchema

/-! ## Rounding -/

/-- The whole number nearest to `num / den`, a half going to the even neighbour. -/
def roundHalfEven (num den : Nat) : Nat :=
  let q := num / den
  let r := num % den
  if 2 * r < den then q
  else if den < 2 * r then q + 1
  else if q % 2 = 0 then q else q + 1

/-- The number of units nearest to `num / den` units among those with 53 significant bits. -/
def roundUnits (num den : Nat) : Nat :=
  let shift := (num / den).log2 - 52
  roundHalfEven num (den * Nat.pow 2 shift) * Nat.pow 2 shift

/-! ## Doubles -/

/-- A finite double: its sign, and its size in units of `2^-1074`. Zero has both signs. -/
structure Double where
  negative : Bool
  units : Nat
  deriving DecidableEq, Repr

namespace Double

@[irreducible]
def one : Nat := Nat.pow 2 1074

/-- The units of the first power of two that is too large for a finite double. -/
def bound : Nat := Nat.pow 2 2098

/-- The double nearest to `± num / den` units; `none` if that is no finite one. -/
def ofUnits? (negative : Bool) (num den : Nat) : Option Double :=
  let units := roundUnits num den
  if units < bound then some ⟨negative, units⟩ else none

def signedUnits (x : Double) : Int := if x.negative then -(x.units : Int) else x.units

def isWhole (x : Double) : Bool := x.units % one == 0

/-- The integer nearest to a double on the side of zero. -/
def truncate (x : Double) : Nat := x.units / one

def ofInt (n : Int) : Double := ⟨decide (n < 0), roundUnits (n.natAbs * one) 1⟩

theorem isWhole_iff (x : Double) : x.isWhole = true ↔ ∃ n : Int, x.signedUnits = n * one := by
  simp only [isWhole, beq_iff_eq, signedUnits]
  constructor
  · intro h
    have hx : (x.units : Int) = ((x.units / one : Nat) : Int) * one := by
      exact_mod_cast (Nat.div_mul_cancel (Nat.dvd_of_mod_eq_zero h)).symm
    cases x.negative with
    | true => exact ⟨-((x.units / one : Nat) : Int), by simp only [if_true, Int.neg_mul, ← hx]⟩
    | false =>
      exact ⟨((x.units / one : Nat) : Int), by simpa only [Bool.false_eq_true, if_false] using hx⟩
  · rintro ⟨n, hn⟩
    apply Nat.mod_eq_zero_of_dvd
    have : (one : Int) ∣ (x.units : Int) := by
      cases hs : x.negative with
      | true =>
        rw [hs] at hn
        exact ⟨-n, by simp only [if_true] at hn; rw [Int.mul_neg, Int.mul_comm, ← hn, Int.neg_neg]⟩
      | false =>
        rw [hs] at hn
        exact ⟨n, by simp only [Bool.false_eq_true, if_false] at hn; rw [Int.mul_comm]; exact hn⟩
    exact_mod_cast this

end Double

end JsonSchema
