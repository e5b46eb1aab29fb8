/-!
# Digits

Decimal and hexadecimal digits and the numbers they write.

* `natText`, `digitsValue`: writing and reading decimals;
* `digitsValue_natText`: reading a written number gives it back;
* `hexDigit`, `hexValue?`: one hexadecimal digit.
-/

namespace JsonSchema

/-! ## Decimals -/

/-- The decimal text of a number, without leading zeros. -/
def natText (n : Nat) : List Char := Nat.toDigits 10 n

def intText (n : Int) : List Char :=
  if n < 0 then '-' :: natText n.natAbs else natText n.natAbs

def digitValue (c : Char) : Nat := c.toNat - 48

def digitsValue (ds : List Char) : Nat := ds.foldl (fun n c => 10 * n + digitValue c) 0

theorem digitsValue_append (ds : List Char) (c : Char) :
    digitsValue (ds ++ [c]) = 10 * digitsValue ds + digitValue c := by
  simp [digitsValue]

theorem digitValue_digitChar {n : Nat} (h : n < 10) : digitValue n.digitChar = n := by
  have : ∀ k < 10, digitValue k.digitChar = k := by decide
  exact this n h

theorem digitsValue_natText (n : Nat) : digitsValue (natText n) = n := by
  induction n using Nat.strongRecOn with
  | ind n ih =>
    by_cases h : n < 10
    · rw [natText, Nat.toDigits_of_lt_base h]
      simp [digitsValue, digitValue_digitChar h]
    · have hd : natText n = natText (n / 10) ++ [(n % 10).digitChar] := by
        have := Nat.toDigits_of_base_le (b := 10) (n := n) (by decide) (by omega)
        simpa [natText] using this
      rw [hd, digitsValue_append, ih _ (by omega), digitValue_digitChar (by omega)]
      omega

/-! ## Hexadecimal digits -/

/-- The lower-case digit of a number below 16. -/
def hexDigit (n : Nat) : Char :=
  if n < 10 then Char.ofNat (48 + n) else Char.ofNat (87 + n)

/-- The value of a digit of either case. -/
def hexValue? (c : Char) : Option Nat :=
  if '0' ≤ c ∧ c ≤ '9' then some (c.toNat - 48)
  else if 'a' ≤ c ∧ c ≤ 'f' then some (c.toNat - 87)
  else if 'A' ≤ c ∧ c ≤ 'F' then some (c.toNat - 55)
  else none

theorem hexValue?_hexDigit {n : Nat} (h : n < 16) : hexValue? (hexDigit n) = some n := by
  have : ∀ k < 16, hexValue? (hexDigit k) = some k := by decide
  exact this n h

end JsonSchema
