import JsonSchema.Number.Double

/-!
# JSON numbers

A number is an exact integer or a double. Both are compared as signed numbers of units `2^-1074`,
so no comparison rounds.

* `Number.lt_iff`, `Number.same_iff`: comparison is that of the exact values;
* `Number.isInteger_iff`: a number is an integer when its exact value is.
-/

namespace JsonSchema

inductive Number where
  | integer (n : Int)
  | double (x : Double)
  deriving DecidableEq, Repr

namespace Number

/-- The exact value, as a signed number of units `2^-1074`. -/
def signedUnits : Number → Int
  | integer n => n * Double.one
  | double x => x.signedUnits

def lt (a b : Number) : Bool := decide (a.signedUnits < b.signedUnits)

def le (a b : Number) : Bool := decide (a.signedUnits ≤ b.signedUnits)

/-- Equality of the exact values, whatever the form. -/
def same (a b : Number) : Bool := decide (a.signedUnits = b.signedUnits)

theorem lt_iff (a b : Number) : a.lt b = true ↔ a.signedUnits < b.signedUnits := by simp [lt]

theorem le_iff (a b : Number) : a.le b = true ↔ a.signedUnits ≤ b.signedUnits := by simp [le]

theorem same_iff (a b : Number) : a.same b = true ↔ a.signedUnits = b.signedUnits := by
  simp [same]

/-! ## Integers -/

def isInteger : Number → Bool
  | integer _ => true
  | double x => x.isWhole

theorem isInteger_iff (a : Number) :
    a.isInteger = true ↔ ∃ n : Int, a.signedUnits = n * Double.one := by
  cases a with
  | integer n => exact ⟨fun _ => ⟨n, rfl⟩, fun _ => rfl⟩
  | double x => exact x.isWhole_iff

/-- The nearest double. -/
def toDouble : Number → Double
  | integer n => .ofInt n
  | double x => x

/-- The largest size a limit can ask for. -/
def largestSize : Nat := UInt64.size - 1

/-- Read a size: a non-negative integer in either form, cut at the largest size. -/
def size? : Number → Option Nat
  | integer n => if 0 ≤ n then some n.toNat else none
  | double x =>
    if 0 ≤ x.signedUnits ∧ x.isWhole then some (min x.truncate largestSize) else none

end Number

end JsonSchema
