import JsonSchema.Json.Basic
import JsonSchema.Number.Text
import JsonSchema.Text.Digits

/-!
# Reading JSON

A reader takes a value off the front of a text and returns the rest. Each nested value costs one
unit of fuel, and so does each item, so the length of the text is fuel enough. A name that occurs
twice in an object keeps its first position and its last value.

* `Json.parse?`: the value of a whole text.
-/

namespace JsonSchema

namespace Reader

def isBlank (c : Char) : Bool := c = ' ' || c = '\n' || c = '\r' || c = '\t'

def skipBlanks (cs : List Char) : List Char := cs.dropWhile isBlank

/-! ## Strings -/

/-- The code unit of four hex digits. -/
def readUnit? : List Char → Option (Nat × List Char)
  | a :: b :: c :: d :: cs => do
    let a ← hexValue? a
    let b ← hexValue? b
    let c ← hexValue? c
    let d ← hexValue? d
    return (((a * 16 + b) * 16 + c) * 16 + d, cs)
  | _ => none

/-- A character after `\u`: one unit, or two that form a surrogate pair. -/
def readHexEscape? (cs : List Char) : Option (Char × List Char) := do
  let (unit, cs) ← readUnit? cs
  if unit < 0xD800 ∨ 0xDFFF < unit then return (Char.ofNat unit, cs)
  match cs with
  | '\\' :: 'u' :: cs =>
    let (low, cs) ← readUnit? cs
    if unit < 0xDC00 ∧ 0xDC00 ≤ low ∧ low ≤ 0xDFFF then
      return (Char.ofNat (0x10000 + (unit - 0xD800) * 0x400 + (low - 0xDC00)), cs)
    else none
  | _ => none

def letterValue? (c : Char) : Option Char :=
  if c = '"' ∨ c = '\\' ∨ c = '/' then some c
  else if c = 'b' then some (Char.ofNat 8)
  else if c = 'f' then some (Char.ofNat 12)
  else if c = 'n' then some (Char.ofNat 10)
  else if c = 'r' then some (Char.ofNat 13)
  else if c = 't' then some (Char.ofNat 9)
  else none

/-- Read up to the closing quote, collecting the characters in reverse. -/
def readString? : Nat → List Char → List Char → Option (String × List Char)
  | 0, _, _ => none
  | fuel + 1, done, cs =>
    match cs with
    | [] => none
    | '"' :: cs => some (String.ofList done.reverse, cs)
    | '\\' :: 'u' :: cs => do
      let (c, cs) ← readHexEscape? cs
      readString? fuel (c :: done) cs
    | '\\' :: c :: cs => do
      let c ← letterValue? c
      readString? fuel (c :: done) cs
    | c :: cs => if c.toNat < 32 then none else readString? fuel (c :: done) cs

/-! ## Values -/

def word? (w cs : List Char) : Option (List Char) :=
  if w.isPrefixOf cs then some (cs.drop w.length) else none

def number? (cs : List Char) : Option (Json × List Char) := do
  let (x, cs) ← Numeral.read? cs
  return (.number (← x.number?), cs)

mutual
def value? : Nat → List Char → Option (Json × List Char)
  | 0, _ => none
  | fuel + 1, cs =>
    match skipBlanks cs with
    | '"' :: cs => (readString? (cs.length + 1) [] cs).map fun (s, cs) => (.string s, cs)
    | '[' :: cs =>
      match skipBlanks cs with
      | ']' :: cs => some (.array [], cs)
      | cs => (items? fuel [] cs).map fun (xs, cs) => (.array xs, cs)
    | '\x7b' :: cs =>
      match skipBlanks cs with
      | '\x7d' :: cs => some (.object [], cs)
      | cs => (members? fuel [] cs).map fun (ms, cs) => (.object ms, cs)
    | 't' :: cs => (word? ['r', 'u', 'e'] cs).map fun cs => (.bool true, cs)
    | 'f' :: cs => (word? ['a', 'l', 's', 'e'] cs).map fun cs => (.bool false, cs)
    | 'n' :: cs => (word? ['u', 'l', 'l'] cs).map fun cs => (.null, cs)
    | cs => number? cs

/-- The items up to the closing bracket, after those collected in reverse. -/
def items? : Nat → List Json → List Char → Option (List Json × List Char)
  | 0, _, _ => none
  | fuel + 1, done, cs => do
    let (v, cs) ← value? fuel cs
    match skipBlanks cs with
    | ',' :: cs => items? fuel (v :: done) cs
    | ']' :: cs => return ((v :: done).reverse, cs)
    | _ => none

/-- The members up to the closing brace, after those collected so far. -/
def members? : Nat → Members → List Char → Option (Members × List Char)
  | 0, _, _ => none
  | fuel + 1, done, cs => do
    let '"' :: cs := skipBlanks cs | none
    let (name, cs) ← readString? (cs.length + 1) [] cs
    let ':' :: cs := skipBlanks cs | none
    let (v, cs) ← value? fuel cs
    match skipBlanks cs with
    | ',' :: cs => members? fuel (Members.insert done name v) cs
    | '\x7d' :: cs => return (Members.insert done name v, cs)
    | _ => none
end

end Reader

/-- The value of a text, blanks around it allowed. -/
def Json.parse? (text : String) : Option Json := do
  let cs := text.toList
  let (v, rest) ← Reader.value? (cs.length + 1) cs
  if Reader.skipBlanks rest = [] then return v else none

end JsonSchema
