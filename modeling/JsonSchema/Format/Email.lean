import JsonSchema.Unicode.Numeric
import JsonSchema.Unicode.Word

/-!
# Email addresses

An email is an address, or a display name and an address in angle brackets after a blank. The last
at-sign of the address separates a local part of atoms, or of quoted text, from a domain of
labels, or of text in brackets.

* `isEmail`: the emails.
-/

namespace JsonSchema.Format

namespace Email

/-! ## Characters -/

/-- Code points whose two bytes read as one UTF-8 sequence. -/
def isOdd (c : Char) : Bool :=
  let high := c.toNat / 256
  let low := c.toNat % 256
  decide (0xC2 ≤ high ∧ high ≤ 0xDF ∧ 0x80 ≤ low ∧ low ≤ 0xBF)

def isAtomChar (c : Char) : Bool :=
  Unicode.isAlphanumeric c || "!#$%&'*+-/=?^_\x60\x7b|\x7d~".toList.contains c || isOdd c

/-- Quoted text without backslashes. -/
def isQuotedChar (c : Char) : Bool :=
  c = ' ' || c = '\t' || c.toNat = 0x21 || decide (0x23 ≤ c.toNat ∧ c.toNat ≤ 0x5B)
    || decide (0x5D ≤ c.toNat ∧ c.toNat ≤ 0x7E) || isOdd c

def isBracketedChar (c : Char) : Bool :=
  decide (0x21 ≤ c.toNat ∧ c.toNat ≤ 0x5A) || decide (0x5E ≤ c.toNat ∧ c.toNat ≤ 0x7E) || isOdd c

/-- Quoted text, where a backslash goes with a visible character. -/
def isQuotedText : List Char → Bool
  | [] => true
  | '\\' :: c :: cs => decide (0x21 ≤ c.toNat ∧ c.toNat ≤ 0x7E) && isQuotedText cs
  | c :: cs => isQuotedChar c && isQuotedText cs

/-! ## Cutting -/

/-- Cut at each point. -/
def parts : List Char → List (List Char)
  | [] => [[]]
  | c :: cs =>
    if c = '.' then [] :: parts cs
    else match parts cs with
      | [] => [[c]]
      | p :: ps => (c :: p) :: ps

/-- The texts before and after the last at-sign. -/
def cutLastAt? : List Char → Option (List Char × List Char)
  | [] => none
  | c :: cs =>
    match cutLastAt? cs with
    | some (before, after) => some (c :: before, after)
    | none => if c = '@' then some ([], cs) else none

/-- The texts before and after the last blank with an opening bracket. -/
def cutLastBracket? : List Char → Option (List Char × List Char)
  | [] => none
  | c :: cs =>
    match cutLastBracket? cs with
    | some (before, after) => some (c :: before, after)
    | none => if c = ' ' ∧ cs.head? = some '<' then some ([], cs.drop 1) else none

def trim (cs : List Char) : List Char :=
  ((cs.dropWhile Unicode.isBlank).reverse.dropWhile Unicode.isBlank).reverse

def bytes (cs : List Char) : Nat := (String.ofList cs).utf8ByteSize

/-- Whether a text starts and ends with the given characters. -/
def enclosed (first last : Char) (cs : List Char) : Bool :=
  cs.head? == some first && cs.getLast? == some last

def inner (cs : List Char) : List Char := (cs.drop 1).dropLast

/-! ## Parts of an address -/

def isAtom (cs : List Char) : Bool := !cs.isEmpty && cs.all isAtomChar

def isLocalPart (cs : List Char) : Bool :=
  decide (1 ≤ bytes cs ∧ bytes cs ≤ 64) &&
    if enclosed '"' '"' cs then decide (2 < bytes cs) && isQuotedText (inner cs)
    else (parts cs).all isAtom

def isLabel (cs : List Char) : Bool :=
  isAtom cs && decide (bytes cs ≤ 63) && cs.head?.any Unicode.isAlphanumeric
    && cs.getLast?.any Unicode.isAlphanumeric

def isDomain (cs : List Char) : Bool :=
  decide (1 ≤ bytes cs ∧ bytes cs ≤ 254) &&
    if enclosed '[' ']' cs then (inner cs).all isBracketedChar
    else (parts cs).all isLabel

/-- The display name and the address. -/
def cutDisplay? (cs : List Char) : Option (List Char × List Char) :=
  match cutLastBracket? cs with
  | none => some ([], cs)
  | some (left, right) =>
    let right := trim right
    if right.getLast? = some '>' then some (trim left, right.dropLast) else none

end Email

open Email in
def isEmail (s : String) : Bool :=
  match cutDisplay? s.toList with
  | none => false
  | some (display, address) =>
    match cutLastAt? address with
    | none => false
    | some (localPart, domain) =>
      !(display.isEmpty && localPart.head? == some '<') && isLocalPart localPart && isDomain domain

end JsonSchema.Format
