import JsonSchema.Regex.Basic

/-!
# Automata of plain patterns

A plain pattern becomes a table of states, each going on to others by number. A run keeps the
states it may be in at one position as threads in order of preference and takes every state once
for a position, at its most preferred place. So a run reads the text once, and a round of a loop
that consumes nothing is not repeated. In a run for the preferred match, the first thread to accept
cuts off all that come after it.

* `Automaton.ofRegex`: the automaton of a plain pattern;
* `Automaton.end?`: where the preferred match from a position ends;
* `Automaton.endsAt`: whether a match ends at a position;
* `Automaton.occursIn`: whether the text holds a match.
-/

namespace JsonSchema

namespace Automaton

inductive State where
  | read (s : CharSet) (next : Nat)
  | check (a : Anchor) (next : Nat)
  /-- Go on at either state, preferably the first. -/
  | fork (first second : Nat)
  | accept
  deriving DecidableEq, Repr

end Automaton

structure Automaton where
  states : Array Automaton.State
  start : Nat
  deriving DecidableEq, Repr

namespace Automaton

/-! ## The automaton of a pattern -/

abbrev Built := Nat × Array State

def append (s : State) (table : Array State) : Built := (table.size, table.push s)

/-- Go on with the body or, less or more preferably, leave the loop. -/
def branch (greedy : Bool) (body leave : Nat) : State :=
  if greedy then .fork body leave else .fork leave body

def copies (part : Nat → Array State → Built) : Nat → Nat → Array State → Built
  | 0, next, table => (next, table)
  | n + 1, next, table =>
    let (next, table) := part next table
    copies part n next table

/-- Up to `n` copies of a part, each of which may be the last. -/
def upTo (part : Nat → Array State → Built) (greedy : Bool) (leave : Nat) :
    Nat → Array State → Built
  | 0, table => (leave, table)
  | n + 1, table =>
    let (next, table) := upTo part greedy leave n table
    let (body, table) := part next table
    append (branch greedy body leave) table

def again (part : Nat → Array State → Built) (greedy : Bool) (next : Nat) (table : Array State) :
    Built :=
  let (back, table) := append .accept table
  let (body, table) := part back table
  (body, table.setIfInBounds back (branch greedy body next))

/-- A part any number of times. A part that may be empty is entered as one that comes at least
once, so that leaving after an empty round is preferred to later ways into the part. -/
def anyNumber (part : Nat → Array State → Built) (greedy mayBeEmpty : Bool) (next : Nat)
    (table : Array State) : Built :=
  if mayBeEmpty then
    let (body, table) := again part greedy next table
    append (branch greedy body next) table
  else
    let (head, table) := append .accept table
    let (body, table) := part head table
    (head, table.setIfInBounds head (branch greedy body next))

mutual
/-- Build a pattern that goes on at the state `next`. -/
def build : Regex → Nat → Array State → Built
  | .empty, next, table => (next, table)
  | .one s, next, table => append (.read s next) table
  | .anchor a, next, table => append (.check a next) table
  | .seq parts, next, table => buildAll parts next table
  | .alt ways, next, table => buildAny ways next table
  | .loop a least (some most) greedy, next, table =>
    let (next, table) := upTo (build a) greedy next (most - least) table
    copies (build a) least next table
  | .loop a 0 none greedy, next, table =>
    anyNumber (build a) greedy (a.width.least == 0) next table
  | .loop a (least + 1) none greedy, next, table =>
    let (last, table) := again (build a) greedy next table
    copies (build a) least last table
  | .group _ a, next, table => build a next table
  | .again _ _ _, next, table => (next, table)
  | .look _ _ _, next, table => (next, table)
  | .atomic _, next, table => (next, table)

def buildAll : List Regex → Nat → Array State → Built
  | [], next, table => (next, table)
  | a :: parts, next, table =>
    let (next, table) := buildAll parts next table
    build a next table

def buildAny : List Regex → Nat → Array State → Built
  | [], next, table => append (.read .none next) table
  | [a], next, table => build a next table
  | a :: ways, next, table =>
    let (second, table) := buildAny ways next table
    let (first, table) := build a next table
    append (.fork first second) table
end

/-- The automaton of a plain pattern. State 0 accepts. -/
def ofRegex (a : Regex) : Automaton :=
  let (start, table) := build a 0 #[.accept]
  ⟨table, start⟩

/-! ## Runs -/

/-- The threads at a position: what those that wait for a character read and where they go on, the
most preferred last, whether one accepts, and for every state one more than the position at which
it was last taken. -/
structure Threads where
  readers : List (CharSet × Nat)
  accepted : Bool
  taken : Array Nat

namespace Threads

def fresh (taken : Array Nat) : Threads := ⟨[], false, taken⟩

/-- Take the states in order, and all they lead to without reading. A run for the preferred match
is `choosy`: it takes none that comes after one that accepts. `fuel` bounds the states taken. -/
def add (a : Automaton) (choosy : Bool) (text : Array Char) (p : Nat) :
    Nat → List Nat → Threads → Threads
  | 0, _, t => t
  | _, [], t => t
  | fuel + 1, n :: ns, t =>
    if t.taken.getD n 0 = p + 1 then add a choosy text p fuel ns t
    else
      let t := { t with taken := t.taken.setIfInBounds n (p + 1) }
      match a.states[n]? with
      | some (.read s next) =>
        add a choosy text p fuel ns { t with readers := (s, next) :: t.readers }
      | some (.check k next) =>
        add a choosy text p fuel (if k.holds text p then next :: ns else ns) t
      | some (.fork first second) => add a choosy text p fuel (first :: second :: ns) t
      | some .accept =>
        add a choosy text p fuel (if choosy then [] else ns) { t with accepted := true }
      | none => add a choosy text p fuel ns t

/-- The states that the threads go on at when they read a character, the most preferred first. -/
def after (t : Threads) (c : Char) : List Nat :=
  t.readers.foldl (fun ns (s, next) => if s.has c then next :: ns else ns) []

end Threads

/-- The threads of states at a position. Each of the states is taken once and leads to at most two
more. -/
def threads (a : Automaton) (choosy : Bool) (text : Array Char) (p : Nat) (ns : List Nat)
    (taken : Array Nat) : Threads :=
  .add a choosy text p (2 * a.states.size + ns.length) ns (.fresh taken)

def untaken (a : Automaton) : Array Nat := Array.replicate a.states.size 0

/-- Read on from states at a position, `left` before the end of the text, and return the end of
the last match accepted, or else the one found before. -/
def follow (a : Automaton) (text : Array Char) :
    Nat → Nat → List Nat → Option Nat → Array Nat → Option Nat
  | _, _, [], found, _ => found
  | left, p, ns, found, taken =>
    let t := a.threads true text p ns taken
    let found := if t.accepted then some p else found
    match left, text[p]? with
    | left + 1, some c => follow a text left (p + 1) (t.after c) found t.taken
    | _, _ => found

def end? (a : Automaton) (text : Array Char) (p : Nat) : Option Nat :=
  follow a text (text.size - p) p [a.start] none a.untaken

/-- Read on from states at a position, and from the start at every position, `left` before the
last one, and tell whether a match ends there or, if that is enough, anywhere before. -/
def reach (a : Automaton) (anywhere : Bool) (text : Array Char) :
    Nat → Nat → List Nat → Array Nat → Bool
  | left, p, ns, taken =>
    let t := a.threads false text p (a.start :: ns) taken
    match left, text[p]? with
    | left + 1, some c =>
      (anywhere && t.accepted) || reach a anywhere text left (p + 1) (t.after c) t.taken
    | _, _ => t.accepted

def endsAt (a : Automaton) (text : Array Char) (p : Nat) : Bool :=
  a.reach false text p 0 [] a.untaken

def occursIn (a : Automaton) (text : Array Char) : Bool :=
  a.reach true text text.size 0 [] a.untaken

end Automaton

end JsonSchema
