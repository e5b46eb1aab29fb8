import JsonSchema.Regex.CharSet

/-!
# Patterns

A pattern is a tree over sets of characters. It is searched for in a text, so anchors, word edges
and looks around a position are patterns as well; they consume nothing.

* `Anchor.holds`: the conditions on a position;
* `Regex.width`: how many characters a match takes at least, and whether always as many;
* `Regex.plain`: the patterns whose meaning is a set of end positions;
* combinators for writing patterns directly: `Regex.literal`, `Regex.exactly`, `Regex.oneOf`.
-/

namespace JsonSchema

/-! ## Positions -/

/-- Conditions on a position that consume nothing. -/
inductive Anchor where
  | textStart
  | textEnd
  | lineStart
  | lineEnd
  | wordEdge
  | noWordEdge
  | wordStart
  | wordEnd
  /-- No word character in front. -/
  | noWordBefore
  /-- No word character behind. -/
  | noWordAfter
  deriving DecidableEq, Repr

namespace Anchor

def wordAt (text : Array Char) (i : Nat) : Bool := (text[i]?).any CharSet.word.has

/-- Whether a word character stands before the position. -/
def wordBefore (text : Array Char) (i : Nat) : Bool := i != 0 && wordAt text (i - 1)

def holds (text : Array Char) (i : Nat) : Anchor → Bool
  | textStart => i == 0
  | textEnd => i == text.size
  | lineStart => i == 0 || text[i - 1]? == some '\n'
  | lineEnd => i == text.size || text[i]? == some '\n'
  | wordEdge => wordBefore text i != wordAt text i
  | noWordEdge => wordBefore text i == wordAt text i
  | wordStart => !wordBefore text i && wordAt text i
  | wordEnd => wordBefore text i && !wordAt text i
  | noWordBefore => !wordBefore text i
  | noWordAfter => !wordAt text i

/-- The anchors that do not ask for word characters. -/
def plain : Anchor → Bool
  | textStart | textEnd | lineStart | lineEnd => true
  | _ => false

end Anchor

/-! ## Patterns -/

/-- How many characters a match takes: at least `least`, and exactly as many if `fixed`. -/
structure Width where
  least : Nat
  fixed : Bool
  deriving DecidableEq, Repr

inductive Regex where
  | empty
  | one (s : CharSet)
  | anchor (a : Anchor)
  | seq (parts : List Regex)
  | alt (ways : List Regex)
  /-- From `least` to `most` times `a`, as often as possible first when greedy. -/
  | loop (a : Regex) (least : Nat) (most : Option Nat) (greedy : Bool)
  /-- `a`, whose text is remembered under a number. -/
  | group (index : Nat) (a : Regex)
  /-- The text of a group once more, the width being that of the group as far as it is known. -/
  | again (index : Nat) (anyCase : Bool) (width : Width)
  /-- Whether `a` matches up to or from the position. -/
  | look (ahead positive : Bool) (a : Regex)
  /-- Only the first way in which `a` matches. -/
  | atomic (a : Regex)
  deriving Repr

namespace Regex

mutual
def width : Regex → Width
  | empty | anchor _ | look _ _ _ => ⟨0, true⟩
  | one _ => ⟨1, true⟩
  | seq parts => widthAll parts
  | alt [] => ⟨0, true⟩
  | alt (a :: ways) => widthAny a.width ways
  | loop a least most _ => ⟨a.width.least * least, a.width.fixed && most == some least⟩
  | group _ a | atomic a => a.width
  | again _ _ w => w

/-- The width of a sequence. -/
def widthAll : List Regex → Width
  | [] => ⟨0, true⟩
  | a :: parts =>
    let v := a.width
    let w := widthAll parts
    ⟨v.least + w.least, v.fixed && w.fixed⟩

/-- The width of alternatives after one of width `v`. -/
def widthAny (v : Width) : List Regex → Width
  | [] => v
  | a :: ways =>
    let w := a.width
    widthAny ⟨min v.least w.least, v.fixed && w.fixed && v.least == w.least⟩ ways
end

mutual
/-- Patterns without looks, word edges, atomic parts, repeated groups and the groups `kept` for
repetition: which ends they reach from a position does not depend on how earlier parts matched. -/
def plain (kept : List Nat) : Regex → Bool
  | empty | one _ => true
  | anchor a => a.plain
  | seq as | alt as => plainAll kept as
  | loop a _ _ _ => a.plain kept
  | group index a => a.plain kept && !kept.contains index
  | again _ _ _ | look _ _ _ | atomic _ => false

def plainAll (kept : List Nat) : List Regex → Bool
  | [] => true
  | a :: as => a.plain kept && plainAll kept as
end

def isAlt : Regex → Bool
  | alt _ => true
  | _ => false

/-! ## Writing patterns -/

def char (c : Char) : Regex := one (CharSet.single c)

def sequence : List Regex → Regex
  | [] => empty
  | [a] => a
  | as => seq as

def oneOf : List Regex → Regex
  | [a] => a
  | as => alt as

def literal (s : String) : Regex := sequence (s.toList.map char)

def optional (a : Regex) : Regex := loop a 0 (some 1) true

def many (a : Regex) : Regex := loop a 0 Option.none true

def many1 (a : Regex) : Regex := loop a 1 Option.none true

def exactly (n : Nat) (a : Regex) : Regex := loop a n (some n) true

def between (least most : Nat) (a : Regex) : Regex := loop a least (some most) true

/-- The pattern for a whole text. -/
def whole (a : Regex) : Regex := seq [anchor .textStart, a, anchor .textEnd]

end Regex

end JsonSchema
