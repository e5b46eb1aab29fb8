import JsonSchema.Regex.Class

/-!
# Reading patterns

The syntax of patterns: alternatives of sequences of pieces, where a piece is an atom with at most
one quantifier. Flags hold from where they are set on, also after the group that sets them, unless
that is a group for flags. A brace that opens no quantifier stands for itself.

This is a part of the syntax that the engine knows. It also takes, and `Regex.parse?` refuses, the
flags `x` and `U`, comments, conditionals, `\K`, `\G` and `\Z`, groups repeated by a number in
brackets or relatively, calls of groups, and all that `Escape` and `Class` leave out. What is
refused here may therefore be a pattern there.

* `Regex.parse?`: the pattern of a text and the groups it repeats, `none` if it is not well formed.
-/

namespace JsonSchema.Regex

open Escape (readDecimal?)

/-! ## State -/

/-- What the text read so far fixes: the flags, the groups opened, their names, the widths of the
groups closed, the groups repeated and whether one is repeated by number. -/
structure Reading where
  flags : Flags := {}
  groups : Nat := 0
  names : List (String × Nat) := []
  widths : List (Nat × Width) := []
  kept : List Nat := []
  numbered : Bool := false

abbrev Parsed := Regex × Reading × List Char

/-! ## Quantifiers -/

def readBounds? (cs : List Char) : Option ((Nat × Option Nat) × List Char) := do
  let (least, cs) ← match cs with
    | ',' :: _ => some (0, cs)
    | _ => readDecimal? cs
  match cs with
  | '\x7d' :: cs => return ((least, some least), cs)
  | ',' :: cs =>
    match readDecimal? cs, cs with
    | some (most, '\x7d' :: cs), _ =>
      return ((least, if most + 1 = Escape.numberLimit then none else some most), cs)
    | some _, _ => none
    | none, '\x7d' :: cs => return ((least, none), cs)
    | none, _ => none
  | _ => none

def readQuantifier? : List Char → Option ((Nat × Option Nat) × List Char)
  | '?' :: cs => some ((0, some 1), cs)
  | '*' :: cs => some ((0, none), cs)
  | '+' :: cs => some ((1, none), cs)
  | '\x7b' :: cs => readBounds? cs
  | _ => none

/-- Looks and what is empty cannot be repeated. -/
def repeatable : Regex → Bool
  | empty | look _ _ _ => false
  | _ => true

/-- An atom with the quantifier that follows it: greedy, lazy after `?`, possessive after `+`. -/
def quantify? (a : Regex) (cs : List Char) : Option (Regex × List Char) :=
  match readQuantifier? cs with
  | none => some (a, cs)
  | some ((least, most), cs) =>
    if !repeatable a then none
    else
      let (greedy, cs) := match cs with
        | '?' :: cs => (false, cs)
        | cs => (true, cs)
      match cs with
      | '+' :: cs => some (atomic (loop a least most greedy), cs)
      | cs => some (loop a least most greedy, cs)

/-! ## Escapes -/

def isNameChar (c : Char) : Bool := Unicode.isAlphanumeric c || c == '_'

def readName? (close : Char) (cs : List Char) : Option (String × List Char) :=
  let name := cs.takeWhile isNameChar
  match name, cs.drop name.length with
  | [], _ => none
  | _, c :: cs => if c = close then some (String.ofList name, cs) else none
  | _, [] => none

def repeatGroup (index : Nat) (r : Reading) : Regex × Reading :=
  (again index r.flags.anyCase ((r.widths.lookup index).getD ⟨0, false⟩),
    { r with kept := index :: r.kept })

def repeatNamed? (name : String) (r : Reading) (cs : List Char) : Option Parsed := do
  let index ← r.names.lookup name
  let (a, r) := repeatGroup index r
  return (a, r, cs)

/-- The word edge after `b`: a brace that opens no quantifier names the kind of edge. -/
def readWordEdge? (cs : List Char) : Option (Anchor × List Char) :=
  match cs with
  | '\x7b' :: rest =>
    if (readBounds? rest).isSome then some (.wordEdge, cs)
    else
      let name := rest.takeWhile (· != '\x7d')
      match String.ofList name, rest.drop name.length with
      | "start", _ :: rest => some (.wordStart, rest)
      | "end", _ :: rest => some (.wordEnd, rest)
      | "start-half", _ :: rest => some (.noWordBefore, rest)
      | "end-half", _ :: rest => some (.noWordAfter, rest)
      | _, _ => none
  | _ => some (.wordEdge, cs)

def readEscape? (r : Reading) (cs : List Char) : Option Parsed :=
  match cs with
  | 'A' :: cs => some (anchor .textStart, r, cs)
  | 'z' :: cs => some (anchor .textEnd, r, cs)
  | 'b' :: cs => (readWordEdge? cs).map fun (k, cs) => (anchor k, r, cs)
  | 'B' :: cs => some (anchor .noWordEdge, r, cs)
  | '<' :: cs => some (anchor .wordStart, r, cs)
  | '>' :: cs => some (anchor .wordEnd, r, cs)
  | 'k' :: '<' :: cs => do
    let (name, cs) ← readName? '>' cs
    repeatNamed? name r cs
  | 'K' :: _ | 'G' :: _ | 'k' :: _ => none
  | cs =>
    match readDecimal? cs with
    | some (index, cs) =>
      let (a, r) := repeatGroup index { r with numbered := true }
      some (a, r, cs)
    | none =>
      (Escape.read? r.flags cs).map fun (e, cs) =>
        match e with
        | .code c => (one (r.flags.set (.single c)), r, cs)
        | .literal c => (char c, r, cs)
        | .set s | .inner s => (one s, r, cs)

/-! ## Flags -/

/-- Flag letters, those after a dash cleared, up to a colon or the closing parenthesis. The result
tells whether a colon came; `letters` and `dash` tell what has been read before. -/
def readFlags? (on letters dash : Bool) (f : Flags) : List Char → Option (Flags × Bool × List Char)
  | 'i' :: cs => readFlags? on true dash { f with anyCase := on } cs
  | 'm' :: cs => readFlags? on true dash { f with multiline := on } cs
  | 's' :: cs => readFlags? on true dash { f with dotAll := on } cs
  | 'u' :: cs => if on then readFlags? on true dash f cs else none
  | '-' :: cs => if on then readFlags? false letters true f cs else none
  | ':' :: cs => if letters || !dash then some (f, true, cs) else none
  | ')' :: cs => if letters then some (f, false, cs) else none
  | _ => none

/-! ## Patterns -/

/-- An atom, where `group?` reads a group after its opening parenthesis. -/
def atom? (group? : Reading → List Char → Option Parsed) (r : Reading) (cs : List Char) :
    Option Parsed :=
  match cs with
  | [] => none
  | '*' :: _ | '+' :: _ | '?' :: _ => none
  | '.' :: cs => some (one (if r.flags.dotAll then .all else .complement (.single '\n')), r, cs)
  | '^' :: cs => some (anchor (if r.flags.multiline then .lineStart else .textStart), r, cs)
  | '$' :: cs => some (anchor (if r.flags.multiline then .lineEnd else .textEnd), r, cs)
  | '\\' :: cs => readEscape? r cs
  | '[' :: cs => (Class.read? r.flags cs).map fun (s, cs) => (one s, r, cs)
  | '(' :: cs => group? r cs
  | c :: cs => some (one (r.flags.set (.single c)), r, cs)

/-- The pieces of a sequence, after those read of it, the latest first. -/
def pieces? (group? : Reading → List Char → Option Parsed) :
    Nat → List Regex → Reading → List Char → Option Parsed
  | 0, _, _, _ => none
  | fuel + 1, done, r, cs =>
    match cs with
    | [] | '|' :: _ | ')' :: _ => some (sequence done.reverse, r, cs)
    | cs => do
      let (a, r, cs) ← atom? group? r cs
      let (a, cs) ← quantify? a cs
      let done := match a with
        | empty => done
        | a => a :: done
      pieces? group? fuel done r cs

def ways? (group? : Reading → List Char → Option Parsed) :
    Nat → Reading → List Char → Option (List Regex × Reading × List Char)
  | 0, _, _ => none
  | fuel + 1, r, cs => do
    let (a, r, cs) ← pieces? group? (cs.length + 1) [] r cs
    match cs with
    | '|' :: cs =>
      let (as, r, cs) ← ways? group? fuel r cs
      return (a :: as, r, cs)
    | cs => return ([a], r, cs)

/-- Alternatives up to a closing parenthesis or the end. What is no alternative and ends after a
group was repeated by number must come before all names. -/
def alternatives? (group? : Reading → List Char → Option Parsed) (r : Reading) (cs : List Char) :
    Option Parsed := do
  let (ways, r, cs) ← ways? group? (cs.length + 1) r cs
  match ways with
  | [a] => if r.numbered && !r.names.isEmpty then none else return (a, r, cs)
  | _ => return (alt ways, r, cs)

def inside? (group? : Reading → List Char → Option Parsed) (r : Reading) (cs : List Char) :
    Option Parsed := do
  let (a, r, ')' :: cs) ← alternatives? group? r cs | none
  return (a, r, cs)

def numbered? (group? : Reading → List Char → Option Parsed) (r : Reading) (cs : List Char) :
    Option Parsed := do
  let index := r.groups + 1
  let (a, r, cs) ← inside? group? { r with groups := index } cs
  return (group index a, { r with widths := (index, a.width) :: r.widths }, cs)

def named? (group? : Reading → List Char → Option Parsed) (r : Reading) (cs : List Char) :
    Option Parsed := do
  let (name, cs) ← readName? '>' cs
  numbered? group? { r with names := (name, r.groups + 1) :: r.names } cs

/-- Flags for the rest of the text, or for the inside of the group only. -/
def flagged? (group? : Reading → List Char → Option Parsed) (r : Reading) (cs : List Char) :
    Option Parsed := do
  let (flags, colon, cs) ← readFlags? true false false r.flags cs
  if colon then
    let (a, s, cs) ← inside? group? { r with flags := flags } cs
    return (a, { s with flags := r.flags }, cs)
  else return (empty, { r with flags := flags }, cs)

/-- A group after its opening parenthesis, with so many groups allowed one in the other. -/
def group? : Nat → Reading → List Char → Option Parsed
  | 0, _, _ => none
  | depth + 1, r, cs =>
    let within := fun (f : Regex → Regex) cs =>
      (inside? (group? depth) r cs).map fun (a, r, cs) => (f a, r, cs)
    match cs with
    | '?' :: '=' :: cs => within (look true true) cs
    | '?' :: '!' :: cs => within (look true false) cs
    | '?' :: '<' :: '=' :: cs => within (look false true) cs
    | '?' :: '<' :: '!' :: cs => within (look false false) cs
    | '?' :: '>' :: cs => within atomic cs
    | '?' :: 'P' :: '=' :: cs => do
      let (name, cs) ← readName? ')' cs
      repeatNamed? name r cs
    | '?' :: 'P' :: '<' :: cs => named? (group? depth) r cs
    | '?' :: '<' :: cs => named? (group? depth) r cs
    | '?' :: cs => flagged? (group? depth) r cs
    | cs => numbered? (group? depth) r cs

/-- How many groups may be one in the other. -/
def largestDepth : Nat := 63

/-- The pattern of a text and the groups that it repeats, all of which exist. -/
def parse? (text : String) : Option (Regex × List Nat) := do
  let (a, r, []) ← alternatives? (group? largestDepth) {} text.toList | none
  if r.kept.all fun index => 0 < index && index ≤ r.groups then return (a, r.kept) else none

end JsonSchema.Regex
