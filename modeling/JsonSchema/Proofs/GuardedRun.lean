import JsonSchema.Proofs.Reports

/-!
# Runs with one guard

A run as one thread of state: a tally that is suspended and rewound around probes, the declared
type of the current node, and one set of active targets for the whole run, keyed by the target and
the place of the value. A log keeps every question put to the guard, and every nested node that is
run. A budget bounds the entries that may still be opened inside one another; between two of them
a run goes to smaller nodes only.

* `GuardedRun`: the state, with reports, probes and the guard;
* `Node.run`, `Check.run`: the run.
-/

namespace JsonSchema

/-! ## State -/

/-- A question put to the guard, with what came of it. -/
structure Question where
  target : Target
  path : Path
  value : Json
  /-- The targets that were active, with the places of their values. -/
  active : List (Target × Path)
  /-- Whether the target was entered. -/
  entered : Bool
  /-- Whether nothing was reported. -/
  passed : Bool

/-- The targets that are active once the question is answered, while the target runs. -/
def Question.opened (q : Question) : List (Target × Path) :=
  if q.entered then (q.target, q.path) :: q.active else q.active

inductive Event where
  | question (q : Question)
  /-- A node runs another one that it holds. -/
  | nested (parent child : Node)

structure GuardedRun where
  tally : Tally
  /-- The number of probes around the current step. -/
  suspended : Nat := 0
  /-- The declared type of the current node. -/
  declaredType : Option Json := none
  active : List (Target × Path) := []
  log : List Event := []

/-- Whether a target is active at a place is decided by equality. -/
instance : LawfulBEq (Target × Path) := inferInstance

namespace GuardedRun

def add (r : GuardedRun) (v : Violation) : GuardedRun :=
  { r with tally := if r.suspended = 0 then r.tally.report v
      else { r.tally with count := r.tally.count + 1 } }

def report (r : GuardedRun) (path : Path) (kind : Violation.Kind) (value : Option Json)
    (place : Path) : GuardedRun :=
  r.add ⟨path, kind, some ⟨value, r.declaredType, place⟩⟩

def note (r : GuardedRun) (e : Event) : GuardedRun := { r with log := r.log ++ [e] }

/-- The targets asked for, in the order of the answers, with the places and whether they were
entered. -/
def answered (r : GuardedRun) : List (Target × Path × Bool) :=
  r.log.filterMap fun
    | .question q => some (q.target, q.path, q.entered)
    | .nested _ _ => none

def reportMissing (r : GuardedRun) (h : Heading) (v : Json) (path : Path) : GuardedRun :=
  (h.missing v).foldl
    (fun r name => r.report (path ++ [.name name]) .required (some v) (h.place "required")) r

/-- Look after an absent value, whose node is the current one for as long. -/
def checkAbsent (r : GuardedRun) (h : Heading) (path : Path) : GuardedRun :=
  if h.required && h.default.isNone then
    { { r with declaredType := h.declaredType }.report path .required none (h.place "required")
      with declaredType := r.declaredType }
  else r

def suspend (r : GuardedRun) : GuardedRun := { r with suspended := r.suspended + 1 }

/-- Whether nothing was counted since a mark. -/
def quietSince (r mark : GuardedRun) : Bool := r.tally.count == mark.tally.count

/-- Drop what was counted and recorded since a mark. -/
def rewind (r mark : GuardedRun) : GuardedRun :=
  { r with
    tally := { r.tally with
      count := mark.tally.count
      records := r.tally.records.take mark.tally.records.length }
    suspended := r.suspended - 1 }

def enter (r : GuardedRun) (k : Target) (path : Path) : GuardedRun :=
  { r with active := (k, path) :: r.active }

def leave (r : GuardedRun) (k : Target) (path : Path) : GuardedRun :=
  { r with active := r.active.erase (k, path) }

/-- Run a check on the side, and tell whether it passed. -/
def probe (r : GuardedRun) (check : GuardedRun → Option GuardedRun) :
    Option (Bool × GuardedRun) := do
  let r' ← check r.suspend
  return (r'.quietSince r, r'.rewind r)

/-- Run a check in place, and tell whether it passed. -/
def watch (r : GuardedRun) (check : GuardedRun → Option GuardedRun) :
    Option (Bool × GuardedRun) := do
  let r' ← check r
  return (r'.quietSince r, r')

/-- Run a target on the value at a path while it is active there, unless it is already. -/
def guarded (r : GuardedRun) (k : Target) (path : Path) (v : Json)
    (body : GuardedRun → Option (Bool × GuardedRun)) : Option (Bool × GuardedRun) :=
  if (k, path) ∈ r.active then
    some (true, r.note (.question ⟨k, path, v, r.active, false, true⟩))
  else do
    let (passed, r') ← body (r.enter k path)
    return (passed, (r'.leave k path).note (.question ⟨k, path, v, r.active, true, passed⟩))

def demand (r : GuardedRun) (holds : Bool) (path : Path) (kind : Violation.Kind) (v : Json)
    (place : Path) : GuardedRun :=
  if holds then r else r.report path kind (some v) place

end GuardedRun

/-- Open one of the entries that a budget allows. -/
def spend {α : Type} (budget : Nat) (body : (rest : Nat) → rest < budget → Option α) : Option α :=
  match budget with
  | 0 => none
  | rest + 1 => body rest (Nat.lt_succ_self rest)

/-! ## Runs -/

mutual
/-- Run a node on the value at a path, opening at most `budget` entries inside one another. -/
def Node.run (s : Scope) (budget : Nat) (n : Node) (v : Json) (path : Path) (r : GuardedRun) :
    Option GuardedRun :=
  match n with
  | .mk h head tail => do
    let r' := { r with declaredType := h.declaredType }
    let r' ← (if h.acceptsType v then do
        let r' ← head.foldlM (fun r c => c.run s budget (.mk h head tail) v path r) r'
        let r' := r'.reportMissing h v path
        if h.missing v = [] ∨ s.greedy = true then
          tail.foldlM (fun r c => c.run s budget (.mk h head tail) v path r) r'
        else some r'
      else some (r'.report path .type (some v) (h.place "type")))
    return { r' with declaredType := r.declaredType }
termination_by (budget, sizeOf n)
decreasing_by
  all_goals have := List.sizeOf_lt_of_mem ‹_ ∈ _›
  all_goals apply Prod.Lex.right
  all_goals simp only [Node.mk.sizeOf_spec]
  all_goals omega

def Check.run (s : Scope) (budget : Nat) (n : Node) (c : Check) (v : Json) (path : Path)
    (r : GuardedRun) : Option GuardedRun :=
  match c with
  | .reference text place =>
    match s.subroutines.lookup (.reference text) with
    | none => some r
    | some m => do
      let (passed, r) ← r.guarded (.reference text) path v fun r =>
        spend budget fun rest _h => r.probe fun r => m.run s rest v path r
      return r.demand passed path .reference v place
  | .schemaFormat name =>
    match s.subroutines.lookup (.format name) with
    | none => some r
    | some m => do
      let (_, r) ← r.guarded (.format name) path v fun r =>
        spend budget fun rest _h => r.watch fun r => m.run s rest v path r
      return r
  | .negation m place => do
    let (passed, r) ← (r.note (.nested n m)).probe fun r => m.run s budget v path r
    return r.demand (!passed) path .not v place
  | .anyOf ns place => do
    let (found, r) ← ns.foldlM (fun (found, r) m =>
      if found then some (true, r)
      else (r.note (.nested n m)).probe fun r => m.run s budget v path r) (false, r)
    return r.demand found path .anyOf v place
  | .oneOf ns place => do
    let (passes, r) ← ns.foldlM (fun (passes, r) m => do
      let (passed, r) ← (r.note (.nested n m)).probe fun r => m.run s budget v path r
      return (passes + passed.toNat, r)) (0, r)
    return r.demand (passes == 1) path .oneOf v place
  | c => (c.actions v path).attach.foldlM (fun r => fun
    | ⟨.report kind value place, _⟩ => some (r.report path kind value place)
    | ⟨.absent h below, _⟩ => some (r.checkAbsent h (path ++ [below]))
    | ⟨.visit m w below, _⟩ =>
      m.run s budget w (path ++ below.toList) (r.note (.nested n m))) r
termination_by (budget, sizeOf c)
decreasing_by
  · exact Prod.Lex.left _ _ _h
  · exact Prod.Lex.left _ _ _h
  all_goals apply Prod.Lex.right
  all_goals try simp only [Check.negation.sizeOf_spec, Check.anyOf.sizeOf_spec,
    Check.oneOf.sizeOf_spec]
  · omega
  · have := List.sizeOf_lt_of_mem ‹_ ∈ ns›
    omega
  · have := List.sizeOf_lt_of_mem ‹_ ∈ ns›
    omega
  · exact Check.sizeOf_lt_of_visit ‹_›
end

end JsonSchema
