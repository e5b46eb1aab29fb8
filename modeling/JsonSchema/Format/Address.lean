import JsonSchema.Text.Digits

/-!
# Internet addresses

An IPv4 address is four decimal parts below 256 without leading zeros. An IPv6 address is eight
groups of one to four hex digits, of which the last two may be written as an IPv4 address; one run
of groups may be written as two colons.

* `isIpv4`, `isIpv6`: the addresses.
-/

namespace JsonSchema.Format

/-! ## Parts -/

/-- A decimal part of one to three digits in front. -/
def readPart? (cs : List Char) : Option (List Char) :=
  let ds := cs.takeWhile Char.isDigit
  if ds = [] ∨ 3 < ds.length ∨ (1 < ds.length ∧ ds.head? = some '0') ∨ 255 < digitsValue ds then
    none
  else some (cs.drop ds.length)

/-- A group of one to four hex digits in front. -/
def readGroup? (cs : List Char) : Option (List Char) :=
  let ds := cs.takeWhile fun c => (hexValue? c).isSome
  if ds = [] ∨ 4 < ds.length then none else some (cs.drop ds.length)

/-- What follows a separator, which all but the first part need. -/
def afterSeparator? (separator : Char) (first : Bool) : List Char → Option (List Char)
  | c :: cs => if first then some (c :: cs) else if c = separator then some cs else none
  | [] => if first then some [] else none

def readIpv4? (cs : List Char) : Option (List Char) := do
  let cs ← readPart? cs
  let cs ← readPart? (← afterSeparator? '.' false cs)
  let cs ← readPart? (← afterSeparator? '.' false cs)
  readPart? (← afterSeparator? '.' false cs)

def isIpv4 (s : String) : Bool := readIpv4? s.toList == some []

/-! ## Groups -/

/-- The groups in front, at most `room` more after the `count` read: how many they are, whether an
IPv4 address ended them, and the rest. -/
def readGroups : Nat → Nat → List Char → Nat × Bool × List Char
  | 0, count, cs => (count, false, cs)
  | room + 1, count, cs =>
    let next := afterSeparator? ':' (count == 0) cs
    match if room = 0 then none else next.bind readIpv4? with
    | some rest => (count + 2, true, rest)
    | none =>
      match next.bind readGroup? with
      | some rest => readGroups room (count + 1) rest
      | none => (count, false, cs)

def isIpv6 (s : String) : Bool :=
  let (count, dotted, cs) := readGroups 8 0 s.toList
  if count = 8 then cs == []
  else if dotted then false
  else match cs with
    | ':' :: ':' :: cs => (readGroups (7 - count) 0 cs).2.2 == []
    | _ => false

end JsonSchema.Format
