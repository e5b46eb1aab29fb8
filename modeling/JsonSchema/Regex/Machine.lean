import JsonSchema.Regex.Program

/-!
# Running programs

A search carries out tasks, and where there are several ways to go on it keeps the others as
choices. When a task fails the search goes back to the latest choice. It may go back a million
times, keep a million choices, and take a limited number of steps.

* `Search.step`: one task;
* `Program.occursIn`: whether the text holds a match.
-/

namespace JsonSchema

inductive Slot where
  /-- Where a group was entered last. -/
  | opened (group : Nat)
  /-- Where a group was left last. -/
  | closed (group : Nat)
  /-- Where a loop was last given the choice to go on. -/
  | tried (loop : Nat)
  deriving DecidableEq, Repr

/-- A position in the text and the positions remembered. -/
structure Cursor where
  position : Nat
  slots : List (Slot × Nat)
  deriving Repr

namespace Cursor

def slot? (c : Cursor) (s : Slot) : Option Nat := c.slots.lookup s

def mark (c : Cursor) (s : Slot) : Cursor :=
  { c with slots := (s, c.position) :: c.slots.filter fun e => e.1 != s }

end Cursor

inductive Task where
  | run (a : Program)
  /-- Match from here or, one character after the other, from later positions. -/
  | seek (a : Program)
  /-- Pass a character and seek. -/
  | pass (a : Program)
  | mark (s : Slot)
  | goTo (position : Nat)
  /-- A loop after so many rounds. -/
  | loop (a : Program) (least : Nat) (most : Option Nat) (greedy : Bool) (done : Nat)
  /-- A loop whose rounds may be empty, after so many rounds. -/
  | rounds (index : Nat) (a : Program) (least : Nat) (greedy : Bool) (done : Nat)
  /-- Give up all choices but the first so many. -/
  | commit (choices : Nat)
  /-- Give up all choices but the first so many, and fail. -/
  | reject (choices : Nat)
  deriving Repr

/-- A way to go on, the number of choices up to it counted. -/
structure Choice where
  tasks : List Task
  cursor : Cursor
  count : Nat
  deriving Repr

/-- Where a search stands: what is to be done, from where, the choices kept, latest first, and how
often it may still go back. -/
structure Search where
  tasks : List Task
  cursor : Cursor
  choices : List Choice
  budget : Nat
  deriving Repr

inductive Progress where
  | more (s : Search)
  | found
  | failed
  | exhausted
  deriving Repr

/-! ## Repeating groups -/

def startsAnyCase : List Char → List Char → Bool
  | [], _ => true
  | _ :: _, [] => false
  | c :: wanted, d :: given => (CharSet.variants c).contains d && startsAnyCase wanted given

def occursAnyCase (wanted : List Char) : List Char → Bool
  | [] => startsAnyCase wanted []
  | d :: given => startsAnyCase wanted (d :: given) || occursAnyCase wanted given

/-- Whether a text repeats that of a group up to case, where both take equally many bytes. Beyond
ASCII it is enough that it holds the characters of the group. -/
def agreeAnyCase (wanted given : List Char) : Bool :=
  given == wanted ||
    if given.all fun c => c.val < 128 then given.map Char.toLower == wanted.map Char.toLower
    else occursAnyCase wanted given

def byteLength : List Char → Nat
  | [] => 0
  | c :: cs => c.utf8Size + byteLength cs

def takeBytes? (text : Array Char) : Nat → Nat → Nat → Option (List Char)
  | _, _, 0 => some []
  | 0, _, _ + 1 => none
  | fuel + 1, p, bytes + 1 =>
    match text[p]? with
    | some c =>
      if c.utf8Size ≤ bytes + 1 then
        (takeBytes? text fuel (p + 1) (bytes + 1 - c.utf8Size)).map (c :: ·)
      else none
    | none => none

/-- The position after the text between `low` and `high` repeated at `p`. -/
def repeatText? (text : Array Char) (anyCase : Bool) (low high p : Nat) : Option Nat := do
  if high < low then failure
  let wanted := (text.extract low high).toList
  if anyCase then
    let given ← takeBytes? text (byteLength wanted) p (byteLength wanted)
    if agreeAnyCase wanted given then return p + given.length else failure
  else if (text.extract p (p + wanted.length)).toList = wanted then return p + wanted.length
  else failure

/-! ## Steps -/

namespace Search

def kept (s : Search) : Nat := (s.choices.head?.map Choice.count).getD 0

def fail (s : Search) : Progress :=
  match s.choices, s.budget with
  | [], _ => .failed
  | _ :: _, 0 => .exhausted
  | c :: cs, budget + 1 => .more ⟨c.tasks, c.cursor, cs, budget⟩

def go (s : Search) (tasks : List Task) : Progress := .more { s with tasks := tasks }

def goOn (s : Search) (p : Nat) (tasks : List Task) : Progress :=
  .more { s with tasks := tasks, cursor := { s.cursor with position := p } }

def largestKept : Nat := 1000000

/-- Go on with the first tasks and keep the second as a choice. -/
def either (s : Search) (first second : List Task) : Progress :=
  if s.kept < largestKept then
    .more { s with
      tasks := first
      choices := ⟨second, s.cursor, s.kept + 1⟩ :: s.choices }
  else .exhausted

def branch (s : Search) (greedy : Bool) (body leave : List Task) : Progress :=
  if greedy then s.either body leave else s.either leave body

/-- Give up all choices but the first so many. -/
def commit (s : Search) (n : Nat) : Search :=
  { s with choices := s.choices.dropWhile fun c => n < c.count }

def runProgram (text : Array Char) (s : Search) (a : Program) (rest : List Task) : Progress :=
  let p := s.cursor.position
  match a with
  | .run a =>
    match a.end? text p with
    | some q => s.goOn q rest
    | none => s.fail
  | .anchor k => if k.holds text p then s.go rest else s.fail
  | .seq parts => s.go (parts.map .run ++ rest)
  | .alt [] => s.fail
  | .alt [a] => s.go (.run a :: rest)
  | .alt (a :: ways) => s.either (.run a :: rest) (.run (.alt ways) :: rest)
  | .optional greedy a => s.branch greedy (.run a :: rest) rest
  | .loop a least most greedy => s.go (.loop a least most greedy 0 :: rest)
  | .rounds index a least greedy => s.go (.rounds index a least greedy 0 :: rest)
  | .group index a =>
    .more { s with
      tasks := .run a :: .mark (.closed index) :: rest
      cursor := s.cursor.mark (.opened index) }
  | .again index anyCase =>
    match s.cursor.slot? (.opened index), s.cursor.slot? (.closed index) with
    | some low, some high =>
      match repeatText? text anyCase low high p with
      | some q => s.goOn q rest
      | none => s.fail
    | _, _ => s.fail
  | .ahead a => s.go (.run a :: .goTo p :: rest)
  | .refuse a => s.either [.run a, .reject s.kept] rest
  | .back n => if n ≤ p then s.goOn (p - n) rest else s.fail
  | .behind a => if a.endsAt text p then s.go rest else s.fail
  | .atomic a => s.go (.run a :: .commit s.kept :: rest)

def runTask (text : Array Char) (s : Search) (t : Task) (rest : List Task) : Progress :=
  let p := s.cursor.position
  match t with
  | .run a => s.runProgram text a rest
  | .seek a => s.either (.run a :: rest) (.pass a :: rest)
  | .pass a => if p < text.size then s.goOn (p + 1) (.seek a :: rest) else s.fail
  | .mark slot => .more { s with tasks := rest, cursor := s.cursor.mark slot }
  | .goTo q => s.goOn q rest
  | .loop a least most greedy done =>
    let more := .run a :: .loop a least most greedy (done + 1) :: rest
    if most = some done then s.go rest
    else if done < least then s.go more
    else s.branch greedy more rest
  | .rounds index a least greedy done =>
    let more := .run a :: .rounds index a least greedy (done + 1) :: rest
    if 0 < done ∧ s.cursor.slot? (.tried index) = some p then s.go rest
    else if done < least then s.go more
    else { s with cursor := s.cursor.mark (.tried index) }.branch greedy more rest
  | .commit n => (s.commit n).go rest
  | .reject n => (s.commit n).fail

/-- Carry out the next task. With none left, the search has found a match. -/
def step (text : Array Char) (s : Search) : Progress :=
  match s.tasks with
  | [] => .found
  | t :: rest => s.runTask text t rest

/-- Whether a search finds a match in so many steps. -/
def finds (text : Array Char) : Nat → Search → Bool
  | 0, _ => false
  | fuel + 1, s =>
    match s.step text with
    | .more s => finds text fuel s
    | .found => true
    | .failed | .exhausted => false

/-- How often a search may go back. -/
def largestBudget : Nat := 1000000

/-- The steps that a search may take. -/
def largestSteps : Nat := 1000000000000

end Search

/-- Whether a match occurs in the text, or at its start if the program is `anchored`. A search
that goes beyond its limits finds none. -/
def Program.occursIn (a : Program) (anchored : Bool) (text : Array Char) : Bool :=
  Search.finds text Search.largestSteps
    ⟨[if anchored then .run a else .seek a], ⟨0, []⟩, [], Search.largestBudget⟩

end JsonSchema
