import JsonSchema.Regex.Automaton
import JsonSchema.Regex.Size

/-!
# Programs of patterns

A pattern that is not plain is searched for by a program. Its plain parts become automata as far as
they need no second match: an automaton gives the preferred match from a position and no other.

* `Program.visit`: the program of a pattern;
* `Regex.freeEnd`: a look ahead at the end of a pattern as a part of it.
-/

namespace JsonSchema

inductive Program where
  /-- Go on at the end of the preferred match. -/
  | run (a : Automaton)
  | anchor (a : Anchor)
  | seq (parts : List Program)
  | alt (ways : List Program)
  | optional (greedy : Bool) (a : Program)
  | loop (a : Program) (least : Nat) (most : Option Nat) (greedy : Bool)
  /-- A loop without an upper bound whose rounds may be empty; it has a number of its own. -/
  | rounds (index : Nat) (a : Program) (least : Nat) (greedy : Bool)
  | group (index : Nat) (a : Program)
  | again (index : Nat) (anyCase : Bool)
  /-- Match and return. -/
  | ahead (a : Program)
  /-- Go on only if there is no match. -/
  | refuse (a : Program)
  /-- Go back some characters. -/
  | back (n : Nat)
  /-- Go on only if a match ends here. -/
  | behind (a : Automaton)
  | atomic (a : Program)
  deriving Repr

namespace Program

/-- Making a program numbers its loops. It fails for a part beyond the limits and for a look back
at something neither plain nor of fixed width. -/
abbrev Making := StateT Nat Option

def fresh : Making Nat := modifyGet fun n => (n, n + 1)

def runAll (parts : List Regex) : Making Program :=
  let a := Regex.sequence parts
  if a.fits then return run (.ofRegex a) else failure

/-- The program of a sequence, whose parts come with their programs. Plain parts of fixed width in
front go to one automaton, and so do the plain parts at the end: all of them, or those of fixed
width if the sequence stands `inside` of what may ask for another match. -/
def visitSeq (kept : List Nat) (inside : Bool) (parts : List (Regex × Making Program)) :
    Making Program := do
  let settled := fun (p : Regex × Making Program) => p.1.plain kept && p.1.width.fixed
  let closing := fun (p : Regex × Making Program) =>
    p.1.plain kept && (!inside || p.1.width.fixed)
  let front := parts.takeWhile settled
  let rest := parts.dropWhile settled
  let last := (rest.reverse.takeWhile closing).reverse
  let middle := rest.take (rest.length - last.length)
  return seq ((← runTogether front) ++ (← middle.mapM Prod.snd) ++ (← runTogether last))
where
  runTogether (parts : List (Regex × Making Program)) : Making (List Program) :=
    if parts.isEmpty then return [] else return [← runAll (parts.map Prod.fst)]

def look (positive : Bool) (a : Program) : Program := if positive then ahead a else refuse a

/-- Look back for a part, which comes with its program: one of fixed width by going back and
matching it, a plain one by the positions at which its matches end. -/
def lookBack (kept : List Nat) (positive : Bool) (part : Regex × Making Program) :
    Making Program := do
  let w := part.1.width
  if w.fixed then return look positive (seq [back w.least, ← part.2])
  else if part.1.plain kept && part.1.fits then return look positive (behind (.ofRegex part.1))
  else failure

/-- Look back for alternatives, for each of them on its own. -/
def lookBackAll (kept : List Nat) (positive : Bool) (parts : List (Regex × Making Program)) :
    Making Program := do
  let ps ← parts.mapM (lookBack kept positive)
  return if positive then alt ps else seq ps

mutual
/-- The program of a pattern, where the groups `kept` are repeated. It stands `inside` if what comes
after it may ask for another match of it, which an automaton does not offer. -/
def visit (kept : List Nat) (inside : Bool) (a : Regex) : Making Program :=
  if !inside && a.plain kept then runAll [a]
  else match a with
    | .empty => return seq []
    | .one s => runAll [.one s]
    | .anchor k => return anchor k
    | .seq parts => visitSeq kept inside (parts.zip (visitAll kept true parts))
    | .alt ways => return alt (← (visitAll kept inside ways).mapM id)
    | .loop b least most greedy => do
      if least = 0 ∧ most = some 1 then return optional greedy (← visit kept inside b)
      else if most = none ∧ b.width.least = 0 then
        let index ← fresh
        return rounds index (← visit kept (inside || !b.plain kept) b) least greedy
      else return loop (← visit kept (inside || !b.plain kept) b) least most greedy
    | .group index b => return group index (← visit kept inside b)
    | .again index anyCase _ => return again index anyCase
    | .look true positive b => return look positive (← visit kept false b)
    | .look false positive b =>
      if b.isAlt && !b.width.fixed then lookBackAll kept positive (alternatives kept b)
      else lookBack kept positive (b, visit kept false b)
    | .atomic b => return atomic (← visit kept false b)

def visitAll (kept : List Nat) (inside : Bool) : List Regex → List (Making Program)
  | [] => []
  | a :: as => visit kept inside a :: visitAll kept inside as

def alternatives (kept : List Nat) : Regex → List (Regex × Making Program)
  | .alt ways => ways.zip (visitAll kept false ways)
  | _ => []
end

end Program

/-- A look ahead at the end of a sequence matches as a part of it does. -/
def Regex.freeEnd (a : Regex) : Regex :=
  match a with
  | .seq parts =>
    match parts.getLast? with
    | some (.look true true b) => .seq [.seq parts.dropLast, b]
    | _ => a
  | _ => a

end JsonSchema
