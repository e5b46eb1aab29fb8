import JsonSchema.Regex.Escape

/-!
# Classes

A class is read twice. First the brackets that open and close are paired and the escapes are read,
which gives the tokens of the class. Then the tokens are read as items: characters, ranges, sets
and classes within, with operators between the unions of items. A range that ends in an opening
bracket is refused; the engine goes on to read the rest of the class as part of the pattern.

* `Class.read?`: the set of a class.
-/

namespace JsonSchema.Class

/-! ## Tokens -/

inductive Token where
  | plain (c : Char)
  /-- A character without a meaning of its own. -/
  | quoted (c : Char)
  | set (s : CharSet)
  | inner (s : CharSet)

def tokenOf : Escape → Token
  | .code c | .literal c => .quoted c
  | .set s => .set s
  | .inner s => .inner s

/-- The tokens of a class up to the bracket that closes it, with `nested` brackets open. -/
def readTokens? (f : Flags) : Nat → Nat → List Char → Option (List Token × List Char)
  | 0, _, _ => none
  | fuel + 1, nested, cs =>
    match cs, nested with
    | [], _ => none
    | ']' :: cs, 0 => some ([.plain ']'], cs)
    | ']' :: cs, nested + 1 => do
      let (ts, cs) ← readTokens? f fuel nested cs
      return (.plain ']' :: ts, cs)
    | '[' :: cs, nested => do
      let (ts, cs) ← readTokens? f fuel (nested + 1) cs
      return (.plain '[' :: ts, cs)
    | '\\' :: cs, nested => do
      let (e, cs) ← Escape.read? f cs
      let (ts, cs) ← readTokens? f fuel nested cs
      return (tokenOf e :: ts, cs)
    | c :: cs, nested => do
      let (ts, cs) ← readTokens? f fuel nested cs
      return (.plain c :: ts, cs)

/-- The characters that open a class, where a bracket that closes stands for itself. -/
def splitOpening : List Char → List Char × List Char
  | '^' :: ']' :: cs => (['^', ']'], cs)
  | '^' :: cs => (['^'], cs)
  | ']' :: cs => ([']'], cs)
  | cs => ([], cs)

/-! ## Items -/

def ascii? (name : String) : Option CharSet :=
  match name with
  | "alnum" => some (.spans [('0', '9'), ('A', 'Z'), ('a', 'z')])
  | "alpha" => some (.spans [('A', 'Z'), ('a', 'z')])
  | "ascii" => some (.span '\x00' '\x7f')
  | "blank" => some (.spans [('\t', '\t'), (' ', ' ')])
  | "cntrl" => some (.spans [('\x00', '\x1f'), ('\x7f', '\x7f')])
  | "digit" => some (.span '0' '9')
  | "graph" => some (.span '!' '~')
  | "lower" => some (.span 'a' 'z')
  | "print" => some (.span ' ' '~')
  | "punct" => some (.spans [('!', '/'), (':', '@'), ('[', '\x60'), ('\x7b', '~')])
  | "space" => some (.spans [('\t', '\r'), (' ', ' ')])
  | "upper" => some (.span 'A' 'Z')
  | "word" => some (.spans [('0', '9'), ('A', 'Z'), ('_', '_'), ('a', 'z')])
  | "xdigit" => some Escape.hexDigits
  | _ => none

def readName : List Token → List Char × List Token
  | .plain ':' :: ts => ([], .plain ':' :: ts)
  | .plain c :: ts =>
    let (name, ts) := readName ts
    (c :: name, ts)
  | ts => ([], ts)

/-- A named class, after its opening bracket. -/
def readNamed? (f : Flags) (ts : List Token) : Option (CharSet × List Token) := do
  let .plain ':' :: ts := ts | none
  let (negated, ts) := match ts with
    | .plain '^' :: ts => (true, ts)
    | ts => (false, ts)
  let (name, ts) := readName ts
  let .plain ':' :: .plain ']' :: ts := ts | none
  let s := f.set (← ascii? (String.ofList name))
  return (if negated then .complement s else s, ts)

namespace Token

def char? : Token → Option Char
  | plain c | quoted c => some c
  | set _ | inner _ => none

def chars : Token → CharSet
  | plain c | quoted c => .single c
  | set s | inner s => s

end Token

/-- The rest of a range from a token, or that token alone. A dash before a closing bracket or
before another dash makes no range. -/
def readRange? (t : Token) (ts : List Token) : Option (CharSet × List Token) :=
  match t, ts with
  | .inner s, _ => some (s, ts)
  | _, .plain '-' :: .plain ']' :: _ => some (t.chars, ts)
  | _, .plain '-' :: .plain '-' :: _ => some (t.chars, ts)
  | _, .plain '-' :: u :: rest => do
    let low ← t.char?
    let high ← u.char?
    if low ≤ high then return (.span low high, rest) else none
  | _, _ => some (t.chars, ts)

/-- What has been read of a class: what to make of the items of the last operand, and those read
so far. -/
structure Items where
  combine : CharSet → CharSet
  union : CharSet

namespace Items

def add (r : Items) (s : CharSet) : Items := { r with union := .union r.union s }

def whole (r : Items) : CharSet := r.combine r.union

/-- Begin another operand after an operator. -/
def operator (f : Flags) (op : CharSet → CharSet → CharSet) (r : Items) : Items :=
  ⟨fun t => op (f.set r.whole) (f.set t), .none⟩

end Items

/-- Whether a class that opens here is a complement, and its first items: the dashes in front, or
else a closing bracket, stand for themselves. -/
def readOpening (ts : List Token) : Bool × Items × List Token :=
  let (negated, ts) := match ts with
    | .plain '^' :: ts => (true, ts)
    | ts => (false, ts)
  match ts with
  | .plain ']' :: ts => (negated, ⟨id, .single ']'⟩, ts)
  | .plain '-' :: ts => (negated, ⟨id, .single '-'⟩, skipDashes ts)
  | ts => (negated, ⟨id, .none⟩, ts)
where
  skipDashes : List Token → List Token
    | .plain '-' :: ts => skipDashes ts
    | ts => ts

def close (f : Flags) (negated : Bool) (s : CharSet) : CharSet :=
  if negated then .complement (f.set s) else f.set s

/-- Read items up to the bracket that closes the class, with so many classes allowed within. -/
def readItems? (f : Flags) : Nat → Nat → Items → List Token → Option (CharSet × List Token)
  | 0, _, _, _ => none
  | fuel + 1, depth, r, ts =>
    match ts with
    | [] => none
    | .plain ']' :: ts => some (r.whole, ts)
    | .plain '&' :: .plain '&' :: ts => readItems? f fuel depth (r.operator f .both) ts
    | .plain '-' :: .plain '-' :: ts => readItems? f fuel depth (r.operator f .minus) ts
    | .plain '~' :: .plain '~' :: ts => readItems? f fuel depth (r.operator f .exactlyOne) ts
    | .plain '[' :: ts =>
      match readNamed? f ts, depth with
      | some (s, ts), _ => readItems? f fuel depth (r.add s) ts
      | none, 0 => none
      | none, depth + 1 => do
        let (negated, inner, ts) := readOpening ts
        let (s, ts) ← readItems? f fuel depth inner ts
        readItems? f fuel (depth + 1) (r.add (close f negated s)) ts
    | t :: ts => do
      let (s, ts) ← readRange? t ts
      readItems? f fuel depth (r.add s) ts

def largestDepth : Nat := 249

def read? (f : Flags) (cs : List Char) : Option (CharSet × List Char) := do
  let (front, cs) := splitOpening cs
  let (ts, cs) ← readTokens? f (cs.length + 1) 0 cs
  let (negated, r, ts) := readOpening (front.map .plain ++ ts)
  let (s, []) ← readItems? f (ts.length + 1) largestDepth r ts | none
  return (close f negated s, cs)

end JsonSchema.Class
