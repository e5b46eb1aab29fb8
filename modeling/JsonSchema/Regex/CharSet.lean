import JsonSchema.Unicode.Case
import JsonSchema.Unicode.Recent
import JsonSchema.Unicode.Word

/-!
# Sets of characters

What one place of a pattern may match. Complements and case variants are kept where the syntax
puts them, since `anyCase` does not commute with `complement`.

* `CharSet.has`: membership;
* `CharSet.variants`: the characters equal up to case to a given one.
-/

namespace JsonSchema

inductive CharSet where
  | none
  | all
  | span (low high : Char)
  | digit
  | blank
  | word
  | letter
  | upper
  | alphabetic
  | numeric
  | union (s t : CharSet)
  | both (s t : CharSet)
  | complement (s : CharSet)
  /-- All characters equal up to case to one of the set. -/
  | anyCase (s : CharSet)
  deriving DecidableEq, Repr

namespace CharSet

/-- A property of the tables, which recent characters do not have. -/
def settled (property : Char → Bool) (c : Char) : Bool := property c && !Unicode.isRecent c

/-- The characters equal up to case to the given one, which is among them. -/
def variants (c : Char) : List Char :=
  if Unicode.isRecent c then [c]
  else (Unicode.caseVariants c).filter fun d => !Unicode.isRecent d

def has : CharSet → Char → Bool
  | none, _ => false
  | all, _ => true
  | span low high, c => decide (low ≤ c) && decide (c ≤ high)
  | digit, c => settled Unicode.isDigit c
  | blank, c => Unicode.isBlank c
  | word, c => settled Unicode.isWord c
  | letter, c => settled Unicode.isLetter c
  | upper, c => settled Unicode.isUpper c
  | alphabetic, c => settled Unicode.isAlphabetic c
  | numeric, c => settled Unicode.isNumeric c
  | union s t, c => s.has c || t.has c
  | both s t, c => s.has c && t.has c
  | complement s, c => !s.has c
  | anyCase s, c => (variants c).any s.has

/-! ## Writing sets -/

def single (c : Char) : CharSet := span c c

def spans (ss : List (Char × Char)) : CharSet :=
  ss.foldr (fun s t => union (span s.1 s.2) t) none

def minus (s t : CharSet) : CharSet := both s (complement t)

def exactlyOne (s t : CharSet) : CharSet := union (minus s t) (minus t s)

theorem has_single (c d : Char) : (single c).has d = true ↔ d = c := by
  simp only [single, has, Bool.and_eq_true, decide_eq_true_eq]
  exact ⟨fun h => Char.le_antisymm h.2 h.1, fun h => h ▸ ⟨Char.le_refl _, Char.le_refl _⟩⟩

end CharSet

end JsonSchema
