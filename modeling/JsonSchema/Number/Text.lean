import JsonSchema.Number.Basic
import JsonSchema.Number.Shortest
import JsonSchema.Text.Digits

/-!
# The text of numbers

Doubles are written with their shortest digits, positionally while the decimal exponent lies in
the range of the layout, and otherwise with an exponent.

* `Layout`: which exponents are written positionally;
* `Double.text`, `Number.text`: writing;
* `Numeral.read?`, `Numeral.number?`: reading, to the nearest double unless the text is a plain
  integer of 64 bits.
-/

namespace JsonSchema

/-- The decimal exponents, of the first digit, that are written positionally. -/
structure Layout where
  least : Int
  most : Int

/-- From `0.00001` to `1000000000000000.0` numbers are written positionally. -/
def Layout.answers : Layout := ⟨-5, 15⟩

namespace Decimal

/-- Positional text, with at least one digit on each side of the point. -/
def positional (d : Decimal) : List Char :=
  let ds := natText d.digits
  let places := (-d.exponent).toNat
  if d.exponent ≥ 0 then ds ++ List.replicate d.exponent.toNat '0' ++ ['.', '0']
  else if ds.length > places then
    ds.take (ds.length - places) ++ '.' :: ds.drop (ds.length - places)
  else '0' :: '.' :: List.replicate (places - ds.length) '0' ++ ds

/-- Text with an exponent: one digit, a point if more follow, and the signed exponent. -/
def scientific (d : Decimal) : List Char :=
  let ds := natText d.digits
  let e := d.exponent + ds.length - 1
  let mantissa := if ds.length > 1 then ds.take 1 ++ '.' :: ds.drop 1 else ds
  mantissa ++ 'e' :: (if e < 0 then '-' else '+') :: natText e.natAbs

def text (layout : Layout) (d : Decimal) : List Char :=
  let e := d.exponent + (natText d.digits).length - 1
  if d.digits = 0 ∨ (layout.least ≤ e ∧ e ≤ layout.most) then d.positional else d.scientific

end Decimal

def Double.text (x : Double) : List Char :=
  (if x.negative then ['-'] else []) ++ x.shortest.text Layout.answers

def Number.text : Number → List Char
  | .integer n => intText n
  | .double x => x.text

/-! ## Reading -/

/-- The double nearest to `± digits * 10^exponent`; `none` beyond the largest one. -/
def Double.ofDecimal? (negative : Bool) (digits : Nat) (exponent : Int) : Option Double :=
  if digits = 0 then some ⟨negative, 0⟩
  else if 400 < exponent then none
  else if exponent + digits.log2 < -400 then some ⟨negative, 0⟩
  else if 0 ≤ exponent then
    Double.ofUnits? negative (digits * Nat.pow 10 exponent.toNat * Double.one) 1
  else Double.ofUnits? negative (digits * Double.one) (Nat.pow 10 (-exponent).toNat)

structure Numeral where
  negative : Bool
  whole : List Char
  fraction : List Char
  exponent : Option Int

namespace Numeral

def digits (cs : List Char) : List Char × List Char :=
  (cs.takeWhile Char.isDigit, cs.dropWhile Char.isDigit)

def readExponent? : List Char → Option (Option Int × List Char)
  | c :: cs =>
    if c = 'e' ∨ c = 'E' then
      let (sign, cs) := match cs with
        | '+' :: cs => ((1 : Int), cs)
        | '-' :: cs => (-1, cs)
        | cs => (1, cs)
      match digits cs with
      | ([], _) => none
      | (ds, rest) => some (some (sign * digitsValue ds), rest)
    else some (none, c :: cs)
  | [] => some (none, [])

def readFraction? : List Char → Option (List Char × List Char)
  | '.' :: cs =>
    match digits cs with
    | ([], _) => none
    | (ds, rest) => some (ds, rest)
  | cs => some ([], cs)

/-- Read a numeral off the front of a text. The whole part has no leading zero. -/
def read? (cs : List Char) : Option (Numeral × List Char) := do
  let (negative, cs) := match cs with
    | '-' :: cs => (true, cs)
    | cs => (false, cs)
  let (whole, cs) := digits cs
  if whole = [] ∨ (whole.length > 1 ∧ whole.head? = some '0') then none
  let (fraction, cs) ← readFraction? cs
  let (exponent, cs) ← readExponent? cs
  return (⟨negative, whole, fraction, exponent⟩, cs)

/-- The number of a numeral. Integers of 64 bits stay exact, apart from the negative zero. -/
def number? (x : Numeral) : Option Number :=
  let n := digitsValue x.whole
  if x.fraction = [] ∧ x.exponent = none ∧
      (if x.negative then n ≠ 0 ∧ n ≤ UInt64.size / 2 else n < UInt64.size) then
    some (.integer (if x.negative then -(n : Int) else n))
  else
    let digits := digitsValue (x.whole ++ x.fraction)
    (Double.ofDecimal? x.negative digits (x.exponent.getD 0 - x.fraction.length)).map .double

end Numeral

end JsonSchema
