import JsonSchema.Regex.Machine
import JsonSchema.Regex.Parser

/-!
# Patterns as searched for

A pattern is prepared once and then searched for in texts: a plain one by its automaton, any other
by a program.

* `Pattern.parse?`: the pattern of a text;
* `Pattern.accepts`: whether it occurs in a text.
-/

namespace JsonSchema

inductive Pattern where
  | plain (a : Automaton)
  | program (anchored : Bool) (a : Program)
  deriving Repr

namespace Pattern

/-- Whether a match can only start with the text. -/
def isAnchored : Regex → Bool
  | .anchor .textStart | .seq (.anchor .textStart :: _) => true
  | _ => false

/-- Prepare a pattern that repeats the groups `kept`. -/
def ofRegex? (a : Regex) (kept : List Nat) : Option Pattern :=
  let a := a.freeEnd
  if a.plain kept then if a.fits then some (plain (.ofRegex a)) else none
  else ((Program.visit kept false a).run' 0).map (program (isAnchored a))

def parse? (text : String) : Option Pattern := do
  let (a, kept) ← Regex.parse? text
  ofRegex? a kept

def accepts (p : Pattern) (s : String) : Bool :=
  let text := s.toList.toArray
  match p with
  | plain a => a.occursIn text
  | program anchored a => a.occursIn anchored text

end Pattern

end JsonSchema
