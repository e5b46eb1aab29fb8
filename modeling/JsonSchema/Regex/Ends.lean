import JsonSchema.Regex.Basic

/-!
# End positions of plain patterns

A plain pattern takes a set of positions to the set of positions at which a match that starts in
it can end. Sets are lists without repetition. A loop without an upper bound adds new positions
round by round, and a round that adds none ends it, so a text costs no more rounds than it has
positions.

* `Regex.ends`: the end positions;
* `Regex.occursIn`: whether some position has an end.
-/

namespace JsonSchema.Regex

def join (ps qs : List Nat) : List Nat := ps ++ qs.filter (fun q => !ps.contains q)

def iterate (f : List Nat → List Nat) : Nat → List Nat → List Nat
  | 0, ps => ps
  | n + 1, ps => iterate f n (f ps)

/-- Add to `seen` what `f` reaches from it in at most the given number of rounds; `fresh` are the
positions that the last round added. -/
def closure (f : List Nat → List Nat) : Nat → List Nat → List Nat → List Nat
  | 0, _, seen => seen
  | n + 1, fresh, seen =>
    match (f fresh).filter (fun q => !seen.contains q) with
    | [] => seen
    | new => closure f n new (seen ++ new)

mutual
/-- The end positions of matches of a plain pattern that start in a set. -/
def ends (text : Array Char) : Regex → List Nat → List Nat
  | empty, ps => ps
  | one s, ps => (ps.filter fun p => (text[p]?).any s.has).map (· + 1)
  | anchor k, ps => ps.filter fun p => k.holds text p
  | seq parts, ps => endsOfAll text parts ps
  | alt ways, ps => endsOfAny text ways ps
  | loop a least most _, ps =>
    let start := iterate (a.ends text) least ps
    let rounds := match most with
      | some m => m - least
      | Option.none => text.size + 1
    closure (a.ends text) rounds start start
  | group _ a, ps => a.ends text ps
  | again _ _ _, _ => []
  | look _ _ _, _ => []
  | atomic _, _ => []

def endsOfAll (text : Array Char) : List Regex → List Nat → List Nat
  | [], ps => ps
  | a :: parts, ps => endsOfAll text parts (a.ends text ps)

def endsOfAny (text : Array Char) : List Regex → List Nat → List Nat
  | [], _ => []
  | a :: ways, ps => join (a.ends text ps) (endsOfAny text ways ps)
end

def occursIn (a : Regex) (s : String) : Bool :=
  let text := s.toList.toArray
  a.ends text (List.range (text.size + 1)) != []

end JsonSchema.Regex
