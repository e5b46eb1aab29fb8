import JsonSchema.Regex.Basic
import JsonSchema.Text.Digits

/-!
# Escapes

What a backslash and the text after it stand for, inside and outside classes: a character or a set
of characters. Flags tell whether case counts.

The engine knows the properties of Unicode by all their names and values. Here are the letters, the
upper case, the numbers, the decimal digits, `Alphabetic` and `White_Space`; all others are refused.

* `Escape.read?`: the escape after a backslash.
-/

namespace JsonSchema

/-- What a pattern sets for the text after it. -/
structure Flags where
  anyCase : Bool := false
  multiline : Bool := false
  dotAll : Bool := false

def Flags.set (f : Flags) (s : CharSet) : CharSet := if f.anyCase then .anyCase s else s

inductive Escape where
  /-- A character by its code point, to which the case flag applies. -/
  | code (c : Char)
  /-- A character that stands for itself. -/
  | literal (c : Char)
  | set (s : CharSet)
  /-- A set that a class contains as a class. -/
  | inner (s : CharSet)

namespace Escape

/-! ## Numbers and code points -/

/-- One more than the largest number of a pattern. -/
def numberLimit : Nat := 18446744073709551616

def readDecimal? (cs : List Char) : Option (Nat × List Char) :=
  match cs.takeWhile Char.isDigit with
  | [] => none
  | ds =>
    if digitsValue ds < numberLimit then some (digitsValue ds, cs.dropWhile Char.isDigit) else none

def hexNumber? (ds : List Char) : Option Nat :=
  if ds = [] then none
  else ds.foldl (fun n c => do return 16 * (← n) + (← hexValue? c)) (some 0)

def charOfCode? (n : Nat) : Option Char :=
  if n.isValidChar then some (Char.ofNat n) else none

/-- The character of a code point: exactly `width` hex digits, or up to eight in braces. -/
def readHex? (width : Nat) : List Char → Option (Char × List Char)
  | '\x7b' :: cs => do
    let ds := cs.takeWhile (· != '\x7d')
    let '\x7d' :: cs := cs.drop ds.length | none
    if 8 < ds.length then none
    else return (← charOfCode? (← hexNumber? ds), cs)
  | cs =>
    if (cs.take width).length = width then do
      return (← charOfCode? (← hexNumber? (cs.take width)), cs.drop width)
    else none

/-! ## Properties -/

def property? (name : String) : Option CharSet :=
  match name with
  | "L" | "Letter" => some .letter
  | "Lu" | "Uppercase_Letter" => some .upper
  | "N" | "Number" => some .numeric
  | "Nd" | "Decimal_Number" => some .digit
  | "Alphabetic" => some .alphabetic
  | "White_Space" => some .blank
  | _ => none

/-- A property, as one letter or as a name in braces, after `p` or `P`. -/
def readProperty? : List Char → Option (CharSet × List Char)
  | '\x7b' :: cs => do
    let name := cs.takeWhile (· != '\x7d')
    let '\x7d' :: cs := cs.drop name.length | none
    return (← property? (String.ofList name), cs)
  | c :: cs => do return (← property? (String.singleton c), cs)
  | [] => none

/-! ## Characters and sets -/

def hexDigits : CharSet := CharSet.spans [('0', '9'), ('A', 'F'), ('a', 'f')]

def controlChar? (c : Char) : Option Char :=
  match c with
  | 'a' => some '\x07'
  | 'b' => some '\x08'
  | 'f' => some '\x0c'
  | 'n' => some '\n'
  | 'r' => some '\r'
  | 't' => some '\t'
  | 'v' => some '\x0b'
  | 'e' => some '\x1b'
  | _ => none

/-- The letters that are conditions outside classes, and stand for themselves inside. -/
def isConditionLetter (c : Char) : Bool :=
  c == 'A' || c == 'z' || c == 'B' || c == 'K' || c == 'G' || c == 'k'

/-- The escape after a backslash, as a class may contain it. Digits are none, and a letter without
a meaning is an error. -/
def read? (f : Flags) : List Char → Option (Escape × List Char)
  | [] => none
  | 'd' :: cs => some (set .digit, cs)
  | 'D' :: cs => some (set (.complement .digit), cs)
  | 's' :: cs => some (set .blank, cs)
  | 'S' :: cs => some (set (.complement .blank), cs)
  | 'w' :: cs => some (set .word, cs)
  | 'W' :: cs => some (set (.complement .word), cs)
  | 'h' :: cs => some (inner hexDigits, cs)
  | 'H' :: cs => some (inner (.complement hexDigits), cs)
  | 'p' :: cs => (readProperty? cs).map fun (s, cs) => (set (f.set s), cs)
  | 'P' :: cs => (readProperty? cs).map fun (s, cs) => (set (.complement (f.set s)), cs)
  | 'x' :: cs => (readHex? 2 cs).map fun (c, cs) => (code c, cs)
  | 'u' :: cs => (readHex? 4 cs).map fun (c, cs) => (code c, cs)
  | 'U' :: cs => (readHex? 8 cs).map fun (c, cs) => (code c, cs)
  | c :: cs =>
    match controlChar? c with
    | some d => some (literal d, cs)
    | none => if c.isAlphanum && !isConditionLetter c then none else some (literal c, cs)

end Escape

end JsonSchema
