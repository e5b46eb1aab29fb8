import JsonSchema.Regex.Pattern
import Mathlib.Data.List.Basic

/-!
# Searches with a last task

A search for a program may be asked for one match after the other: it goes back whenever it has
found one. The same program in front of a last task is searched for in the same steps, where the
last task takes the place of asking. So what a pattern for whole texts finds is told by the
matches that the search for the pattern itself comes to.

* `Search.ComesTo`: the matches that a search comes to, and after how many steps;
* `Search.Extends.step`: searches with and without a last task go side by side;
* `Search.finds_iff`: a search with a last test finds a match if that without it comes to one that
  passes the test;
* `Program.occursIn_between`: the program of a pattern between the ends of a text.
-/

namespace JsonSchema

namespace Search

variable {text : Array Char} {last : Task}

/-- After so many steps a search comes to a match, where it goes back after every match before. -/
inductive ComesTo (text : Array Char) : Nat → Search → Cursor → Prop
  | found {s : Search} (h : s.tasks = []) : ComesTo text 0 s s.cursor
  | step {n : Nat} {s s' : Search} {c : Cursor} (h : s.step text = .more s')
      (hc : ComesTo text n s' c) : ComesTo text (n + 1) s c
  | another {n : Nat} {s s' : Search} {c : Cursor} (h : s.tasks = []) (hfail : s.fail = .more s')
      (hc : ComesTo text n s' c) : ComesTo text (n + 1) s c

/-! ## Side by side -/

/-- Tasks with a last one after them, unless they end by failing. -/
inductive Followed (last : Task) : List Task → List Task → Prop
  | nil : Followed last [] [last]
  | reject (n : Nat) : Followed last [.reject n] [.reject n]
  | cons (t : Task) {ts ts' : List Task} (h : Followed last ts ts') :
      Followed last (t :: ts) (t :: ts')

theorem Followed.append {ts ts' : List Task} (h : Followed last ts ts') (front : List Task) :
    Followed last (front ++ ts) (front ++ ts') := by
  induction front with
  | nil => exact h
  | cons t front ih => exact .cons t ih

/-- Choices with a last task after their tasks. -/
structure Choice.Extends (last : Task) (c c' : Choice) : Prop where
  tasks : Followed last c.tasks c'.tasks
  cursor : c'.cursor = c.cursor
  count : c'.count = c.count

/-- Searches that differ in a last task. -/
structure Extends (last : Task) (s s' : Search) : Prop where
  tasks : Followed last s.tasks s'.tasks
  cursor : s'.cursor = s.cursor
  choices : List.Forall₂ (Choice.Extends last) s.choices s'.choices
  budget : s'.budget = s.budget

/-- What a step leads to on both sides. -/
inductive Alongside (last : Task) : Progress → Progress → Prop
  | more {s s' : Search} (h : Extends last s s') : Alongside last (.more s) (.more s')
  | failed : Alongside last .failed .failed
  | exhausted : Alongside last .exhausted .exhausted

namespace Extends

variable {s s' : Search} (h : Extends last s s')

include h

theorem kept : s'.kept = s.kept := by
  have hchoices := h.choices
  rw [Search.kept, Search.kept]
  generalize s.choices = cs at hchoices
  generalize s'.choices = cs' at hchoices
  cases hchoices with
  | nil => rfl
  | cons hc _ => simp [hc.count]

theorem fail : Alongside last s.fail s'.fail := by
  have hchoices := h.choices
  rw [Search.fail, Search.fail, h.budget]
  generalize s.choices = cs at hchoices
  generalize s'.choices = cs' at hchoices
  cases hchoices with
  | nil => exact .failed
  | cons hc hcs =>
    cases s.budget with
    | zero => exact .exhausted
    | succ budget => exact .more ⟨hc.tasks, hc.cursor, hcs, rfl⟩

theorem go {ts ts' : List Task} (hts : Followed last ts ts') :
    Alongside last (s.go ts) (s'.go ts') :=
  .more ⟨hts, h.cursor, h.choices, h.budget⟩

theorem goOn {ts ts' : List Task} (hts : Followed last ts ts') (p : Nat) :
    Alongside last (s.goOn p ts) (s'.goOn p ts') :=
  .more ⟨hts, by simp only [h.cursor], h.choices, h.budget⟩

theorem mark (slot : Slot) : Extends last { s with cursor := s.cursor.mark slot }
    { s' with cursor := s'.cursor.mark slot } :=
  ⟨h.tasks, by simp only [h.cursor], h.choices, h.budget⟩

theorem either {first first' second second' : List Task} (hfirst : Followed last first first')
    (hsecond : Followed last second second') :
    Alongside last (s.either first second) (s'.either first' second') := by
  rw [Search.either, Search.either, h.kept, h.cursor]
  split
  · exact .more ⟨hfirst, rfl, .cons ⟨hsecond, rfl, rfl⟩ h.choices, h.budget⟩
  · exact .exhausted

theorem branch {body body' leave leave' : List Task} (greedy : Bool)
    (hbody : Followed last body body') (hleave : Followed last leave leave') :
    Alongside last (s.branch greedy body leave) (s'.branch greedy body' leave') := by
  cases greedy with
  | true => exact h.either hbody hleave
  | false => exact h.either hleave hbody

theorem commit (n : Nat) : Extends last (s.commit n) (s'.commit n) := by
  refine ⟨h.tasks, h.cursor, ?_, h.budget⟩
  have hchoices := h.choices
  simp only [Search.commit]
  generalize s.choices = cs at hchoices
  generalize s'.choices = cs' at hchoices
  induction hchoices with
  | nil => exact .nil
  | @cons c c' cs cs' hc hcs ih =>
    rw [List.dropWhile_cons, List.dropWhile_cons, hc.count]
    split
    · exact ih
    · exact .cons hc hcs

theorem runProgram {rest rest' : List Task} (a : Program) (hrest : Followed last rest rest') :
    Alongside last (s.runProgram text a rest) (s'.runProgram text a rest') := by
  have hcursor := h.cursor
  cases a with
  | run a =>
    simp only [Search.runProgram, hcursor]
    split
    · exact h.goOn hrest _
    · exact h.fail
  | anchor k =>
    simp only [Search.runProgram, hcursor]
    split
    · exact h.go hrest
    · exact h.fail
  | seq parts => exact h.go (hrest.append _)
  | alt ways =>
    cases ways with
    | nil => exact h.fail
    | cons a ways =>
      cases ways with
      | nil => exact h.go (hrest.cons _)
      | cons b ways => exact h.either (hrest.cons _) (hrest.cons _)
  | optional greedy a => exact h.branch greedy (hrest.cons _) hrest
  | loop a least most greedy => exact h.go (hrest.cons _)
  | rounds index a least greedy => exact h.go (hrest.cons _)
  | group index a =>
    have hmark := h.mark (.opened index)
    exact .more ⟨(hrest.cons _).cons _, hmark.cursor, h.choices, h.budget⟩
  | again index anyCase =>
    simp only [Search.runProgram, hcursor]
    split
    · split
      · exact h.goOn hrest _
      · exact h.fail
    · exact h.fail
  | ahead a =>
    simp only [Search.runProgram, hcursor]
    exact h.go ((hrest.cons _).cons _)
  | refuse a =>
    simp only [Search.runProgram, h.kept]
    exact h.either ((Followed.reject _).cons _) hrest
  | back n =>
    simp only [Search.runProgram, hcursor]
    split
    · exact h.goOn hrest _
    · exact h.fail
  | behind a =>
    simp only [Search.runProgram, hcursor]
    split
    · exact h.go hrest
    · exact h.fail
  | atomic a =>
    simp only [Search.runProgram, h.kept]
    exact h.go ((hrest.cons _).cons _)

theorem runTask {rest rest' : List Task} (t : Task) (hrest : Followed last rest rest') :
    Alongside last (s.runTask text t rest) (s'.runTask text t rest') := by
  have hcursor := h.cursor
  cases t with
  | run a => exact h.runProgram a hrest
  | seek a => exact h.either (hrest.cons _) (hrest.cons _)
  | pass a =>
    simp only [Search.runTask, hcursor]
    split
    · exact h.goOn (hrest.cons _) _
    · exact h.fail
  | mark slot =>
    have hmark := h.mark slot
    exact .more ⟨hrest, hmark.cursor, h.choices, h.budget⟩
  | goTo q => exact h.goOn hrest q
  | loop a least most greedy done =>
    simp only [Search.runTask]
    split
    · exact h.go hrest
    · split
      · exact h.go ((hrest.cons _).cons _)
      · exact h.branch greedy ((hrest.cons _).cons _) hrest
  | rounds index a least greedy done =>
    simp only [Search.runTask, hcursor]
    split
    · exact h.go hrest
    · split
      · exact h.go ((hrest.cons _).cons _)
      · have hmark := h.mark (.tried index)
        rw [hcursor] at hmark
        exact hmark.branch greedy ((hrest.cons _).cons _) hrest
  | commit n => exact (h.commit n).go hrest
  | reject n => exact (h.commit n).fail

/-- **A step** leads to searches that differ in the last task again. -/
theorem step (htasks : s.tasks ≠ []) : Alongside last (s.step text) (s'.step text) := by
  rw [Search.step, Search.step]
  cases hts : s.tasks with
  | nil => exact absurd hts htasks
  | cons t ts =>
    have hfollowed := h.tasks
    rw [hts] at hfollowed
    generalize s'.tasks = ts' at hfollowed
    cases hfollowed with
    | reject n => exact (h.commit n).fail
    | cons t hrest => exact h.runTask t hrest

end Extends

/-! ## A last test -/

/-- A test of the position, carried out last. -/
def IsTest (text : Array Char) (last : Task) (ok : Nat → Bool) : Prop :=
  ∀ s : Search, s.runTask text last [] = if ok s.cursor.position then s.go [] else s.fail

/-- Whether a match is found in so many steps more. -/
def Progress.finds (text : Array Char) (fuel : Nat) : Progress → Bool
  | .more s => Search.finds text fuel s
  | .found => true
  | .failed | .exhausted => false

theorem finds_succ (fuel : Nat) (s : Search) :
    finds text (fuel + 1) s = Progress.finds text fuel (s.step text) := rfl

/-- **A search with a last test** finds a match if the search without it comes to one that passes
the test. -/
theorem finds_iff {ok : Nat → Bool} (htest : IsTest text last ok) {fuel : Nat} {s s' : Search}
    (h : Extends last s s') :
    finds text fuel s' = true ↔
      ∃ n c, ComesTo text n s c ∧ ok c.position = true ∧ n + 2 ≤ fuel := by
  induction fuel generalizing s s' with
  | zero => simp [finds]
  | succ fuel ih =>
    have hgoing {x x' : Progress} (hx : Alongside last x x') :
        Progress.finds text fuel x' = true ↔
          ∃ s₁, x = .more s₁ ∧
            ∃ n c, ComesTo text n s₁ c ∧ ok c.position = true ∧ n + 2 ≤ fuel := by
      cases hx with
      | more h => simp [Progress.finds, ih h]
      | failed | exhausted => simp [Progress.finds]
    rw [finds_succ]
    cases hts : s.tasks with
    | nil =>
      have hlast : s'.step text = if ok s.cursor.position then s'.go [] else s'.fail := by
        have htasks := h.tasks
        rw [hts] at htasks
        rw [Search.step]
        generalize s'.tasks = ts' at htasks
        cases htasks
        rw [← h.cursor]
        exact htest s'
      rw [hlast]
      by_cases hok : ok s.cursor.position = true
      · rw [if_pos hok]
        cases fuel with
        | zero =>
          simp [finds, Search.go, Progress.finds]
        | succ fuel =>
          have hfound : Progress.finds text (fuel + 1) (s'.go []) = true := rfl
          rw [hfound, eq_self_iff_true, true_iff]
          exact ⟨0, s.cursor, .found hts, hok, by omega⟩
      · rw [if_neg hok, hgoing h.fail]
        constructor
        · rintro ⟨s₁, hs₁, n, c, hc, hok, hn⟩
          exact ⟨n + 1, c, .another hts hs₁ hc, hok, by omega⟩
        · rintro ⟨n, c, hc, hok', hn⟩
          cases hc with
          | found => exact absurd hok' hok
          | step hstep => simp [Search.step, hts] at hstep
          | another _ hfail hc => exact ⟨_, hfail, _, c, hc, hok', by omega⟩
    | cons t ts =>
      have hne : s.tasks ≠ [] := by
        rw [hts]
        exact List.cons_ne_nil t ts
      rw [hgoing (h.step hne)]
      constructor
      · rintro ⟨s₁, hs₁, n, c, hc, hok, hn⟩
        exact ⟨n + 1, c, .step hs₁ hc, hok, by omega⟩
      · rintro ⟨n, c, hc, hok, hn⟩
        cases hc with
        | found hnil | another hnil => exact absurd hnil hne
        | step hstep hc => exact ⟨_, hstep, _, c, hc, hok, by omega⟩

end Search

/-! ## Between the ends of a text -/

namespace Automaton

variable {a : Automaton} {text : Array Char}

/-- Where no thread waits for a character, a run is at its end. -/
theorem follow_of_readers_eq_nil {left p n : Nat} {found : Option Nat} {taken : Array Nat}
    (h : (a.threads true text p [n] taken).readers = []) :
    follow a text left p [n] found taken =
      if (a.threads true text p [n] taken).accepted then some p else found := by
  have hafter (c : Char) : (a.threads true text p [n] taken).after c = [] := by
    rw [Threads.after, h, List.foldl_nil]
  have hnil {left q : Nat} {found : Option Nat} {taken : Array Nat} :
      follow a text left q [] found taken = found := by
    unfold follow
    rfl
  unfold follow
  split
  · simp only [hafter, hnil]
  · rfl

/-- The automaton of an anchor ends where it holds. -/
theorem end?_anchor (k : Anchor) (text : Array Char) (p : Nat) :
    (ofRegex (.anchor k)).end? text p = if k.holds text p then some p else none := by
  have hofRegex : ofRegex (.anchor k) = ⟨#[.accept, .check k 0], 1⟩ := rfl
  have hthreads : (ofRegex (.anchor k)).threads true text p [1] #[0, 0] =
      ⟨[], k.holds text p, if k.holds text p then #[p + 1, p + 1] else #[0, p + 1]⟩ := by
    rw [hofRegex, threads]
    simp [Threads.add, Threads.fresh]
    cases hk : k.holds text p <;> simp [Threads.add]
  have huntaken : (ofRegex (.anchor k)).untaken = #[0, 0] := rfl
  have hstart : (ofRegex (.anchor k)).start = 1 := rfl
  rw [end?, huntaken, hstart, follow_of_readers_eq_nil (by rw [hthreads]), hthreads]

end Automaton

namespace Search

theorem isTest_anchor (text : Array Char) (k : Anchor) :
    IsTest text (.run (.run (.ofRegex (.anchor k)))) (k.holds text) := by
  intro s
  simp only [runTask, runProgram, Automaton.end?_anchor]
  by_cases hk : k.holds text s.cursor.position = true <;> simp [hk, goOn, go]

end Search

namespace Program

/-- The search for matches of a program from the start of a text. -/
def search (a : Program) : Search := ⟨[.run a], ⟨0, []⟩, [], Search.largestBudget⟩

/-- A program between the ends of a text. -/
def between (a : Program) : Program :=
  .seq [.run (.ofRegex (.anchor .textStart)), a, .run (.ofRegex (.anchor .textEnd))]

/-- **The program between the ends** of a text occurs in it if the search for the program comes to
a match that ends with the text. -/
theorem occursIn_between (a : Program) (text : Array Char) :
    a.between.occursIn true text = true ↔
      ∃ n c, Search.ComesTo text n a.search c ∧ c.position = text.size ∧
        n + 4 ≤ Search.largestSteps := by
  have hstart : Search.Extends (.run (.run (.ofRegex (.anchor .textEnd)))) a.search
      ⟨[.run a, .run (.run (.ofRegex (.anchor .textEnd)))], ⟨0, []⟩, [], Search.largestBudget⟩ :=
    ⟨.cons _ .nil, rfl, .nil, rfl⟩
  have hend := Search.isTest_anchor text .textEnd
  obtain ⟨steps, hsteps⟩ : ∃ steps, Search.largestSteps = steps + 2 :=
    Nat.exists_eq_add_of_le' (by decide)
  have hfirst : a.between.occursIn true text = Search.finds text steps
      ⟨[.run a, .run (.run (.ofRegex (.anchor .textEnd)))], ⟨0, []⟩, [],
        Search.largestBudget⟩ := by
    have hopen : Search.runProgram text ⟨[], ⟨0, []⟩, [], Search.largestBudget⟩
        (.run (.ofRegex (.anchor .textStart))) [.run a, .run (.run (.ofRegex (.anchor .textEnd)))] =
          .more ⟨[.run a, .run (.run (.ofRegex (.anchor .textEnd)))], ⟨0, []⟩, [],
            Search.largestBudget⟩ := by
      simp only [Search.runProgram, Automaton.end?_anchor]
      rfl
    rw [occursIn, hsteps]
    exact congrArg (Search.Progress.finds text steps) hopen
  rw [hfirst, Search.finds_iff hend hstart]
  simp [Anchor.holds, hsteps]

end Program

end JsonSchema
