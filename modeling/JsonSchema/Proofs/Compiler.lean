import JsonSchema.Proofs.Building
import JsonSchema.Proofs.Reading

/-!
# Compiling one schema

What compiling does with one schema, the schemas below it and the targets that it names being
compiled by other means. Compiling a document is this with itself for the schemas below, and it
takes each step to a smaller schema or to a target that is not open.

* `Compiler`: how schemas and targets are compiled;
* `Compiler.object`, `Compiler.schema`: a schema by a compiler of what is below it;
* `compileNode_eq`: compiling is this with itself;
* `Plan.induction`: induction over the schemas that compiling comes to.
-/

namespace JsonSchema

/-- How the schemas and the targets below a schema are compiled, in a monad of the compiler. -/
structure Compiler (m : Type → Type) where
  /-- The node of a schema at a place. -/
  node : Path → Json → m Node
  /-- Compile a target at a place, if there is one and that was not done before. -/
  target : Path → Target → m Bool
  read : {α : Type} → Reads α → m α

namespace Compiler

/-! ## A schema by what is below it -/

variable {m : Type → Type} [Monad m] (c : Compiler m) (location : Path)

/-- The nodes of a list of schemas, the first one having the given index. -/
def items (i : Nat) : List Json → m (List Node)
  | [] => return []
  | x :: xs => do
    let n ← c.node (location ++ [.index i]) x
    return n :: (← items (i + 1) xs)

def members : Members → m (List (String × Node))
  | [] => return []
  | (name, v) :: ms => do
    let n ← c.node (location ++ [.name name]) v
    return (name, n) :: (← members ms)

def patterns : Members → m (List (Pattern × Node))
  | [] => return []
  | (text, v) :: ms => do
    let p ← c.read (readPattern (location ++ [.name text]) text)
    let n ← c.node (location ++ [.name text]) v
    return (p, n) :: (← patterns ms)

def dependency (place : Path) : Json → m Dependency
  | .string other => return .names [other] place
  | .array names => do
    return .names (← c.read (readNames
      ⟨place, .invalidKeywordValue "dependencies" "an array of strings"⟩ names)) place
  | v => do return .schema (← c.node place v)

def dependencies : Members → m (List (String × Dependency))
  | [] => return []
  | (name, v) :: ms => do
    let d ← c.dependency (location ++ [.name name]) v
    return (name, d) :: (← dependencies ms)

/-- The check of the items past a tuple. -/
def additionalItems (limit : Nat) (v : Json) : m (List Check) :=
  let place := location ++ [.name "additionalItems"]
  match v with
  | .bool false => return [.rule (.noItemsPast limit) place]
  | .bool true => return []
  | .object ms => do return [.additionalItems limit (← c.node place (.object ms))]
  | _ => c.read (.error (wrongShape location "additionalItems" "a boolean or an object"))

/-- The check of a format by its name. -/
def format (o : Options) (v : Json) : m (List Check) :=
  match v with
  | .string name =>
    let place := location ++ [.name "format"]
    match o.formats.lookup name with
    | some (.schema _) => do
      let _ ← c.target place (.format name)
      return [.schemaFormat name]
    | _ => do return [.rule (← c.read (readFormat o location name)) place]
  | _ => c.read (.error (wrongShape location "format" "a string"))

/-- The checks of one keyword with its value. -/
def keyword (ms : Members) (k : Keyword) (v : Json) : m (List Check) :=
  let place := location ++ [.name k.name]
  match k, v with
  | .dependencies, .object entries => do return [.dependencies (← c.dependencies place entries)]
  | .dependencies, _ => c.read (.error (wrongShape location k.name "an object"))
  | .additionalProperties, .bool true => return []
  | .additionalProperties, .bool false => do
    return [.closed (← c.read (Declared.read location ms)) place]
  | .additionalProperties, .object ps => do
    let declared ← c.read (Declared.read location ms)
    return [.additional declared (← c.node place (.object ps))]
  | .additionalProperties, _ =>
    c.read (.error (wrongShape location k.name "a boolean or an object"))
  | .reference, .string text => do
    let compiled ← c.target place (.reference text)
    return if compiled then [.reference text place] else []
  | .reference, _ => c.read (.error (wrongShape location k.name "a string"))
  | .not, v => do return [.negation (← c.node place v) place]
  | .items, .array _ => return []
  | .items, v => do return [.items (← c.node place v)]
  | .patternProperties, .object [] => return []
  | .patternProperties, .object entries => do
    return [.patternProperties (← c.patterns place entries)]
  | .patternProperties, _ => c.read (.error (wrongShape location k.name "an object"))
  | .allOf, .array xs => do return [.allOf (← c.items place 0 xs)]
  | .allOf, _ => c.read (.error (wrongShape location k.name "an array"))
  | .anyOf, .array [] => return []
  | .anyOf, .array xs => do return [.anyOf (← c.items place 0 xs) place]
  | .anyOf, _ => c.read (.error (wrongShape location k.name "an array"))
  | .oneOf, .array [] => return []
  | .oneOf, .array xs => do return [.oneOf (← c.items place 0 xs) place]
  | .oneOf, _ => c.read (.error (wrongShape location k.name "an array"))
  | k, v => do return (← c.read (k.rule? location ms v)).toList.map fun r => .rule r place

/-- The check of a tuple, or else of declared members. -/
def parts (ms : Members) : m (List Check) :=
  match tuple? ms with
  | some xs => do return [.tuple (← c.items (location ++ [.name "items"]) 0 xs)]
  | none =>
    match ms.lookup "properties" with
    | some (.object ps) => do
      return [.properties (← c.members (location ++ [.name "properties"]) ps) (skipsNull ms)]
    | some _ => c.read (.error (wrongShape location "properties" "an object"))
    | none => return []

def object (o : Options) (ms : Members) : m Node := do
  c.read (checkKeywords o location ms)
  let heading ← c.read (readHeading location ms)
  let extra ← (match tuple? ms, ms.lookup "additionalItems" with
    | some xs, some v => c.additionalItems location xs.length v
    | _, _ => pure [])
  let format ← (match ms.lookup "format" with
    | some v => c.format location o v
    | none => pure [])
  let single ← Keyword.inOrder.mapM fun k =>
    match o.keywords.lookup k.name, ms.lookup k.name with
    | none, some v => c.keyword location ms k v
    | _, _ => pure []
  let parts ← c.parts location ms
  let custom ← c.read (customChecks o location ms ms)
  return .mk heading (extra ++ format) (single.flatten ++ parts ++ custom)

def schema (o : Options) : Json → m Node
  | .object ms => c.object location o ms
  | .bool _ => return .trivial location
  | _ => c.read (.error ⟨location, .invalidSchema⟩)

end Compiler

/-! ## Documents -/

/-- Compiling while some targets are open. -/
def Plan.compiler (plan : Plan) (opened : List Target) : Compiler Build where
  node := compileNode plan opened
  target := compileTarget plan opened
  read r := liftM r

section Compiling

variable (plan : Plan) (opened : List Target) (location : Path)

theorem compileItems_eq (i : Nat) (xs : List Json) :
    compileItems plan opened location i xs = (plan.compiler opened).items location i xs := by
  induction xs generalizing i with
  | nil => rw [compileItems, Compiler.items]
  | cons x xs ih =>
    rw [compileItems, Compiler.items]
    simp only [ih]
    rfl

theorem compileMembers_eq (ms : Members) :
    compileMembers plan opened location ms = (plan.compiler opened).members location ms := by
  induction ms with
  | nil => rw [compileMembers, Compiler.members]
  | cons e ms ih =>
    rw [compileMembers, Compiler.members, ih]
    rfl

theorem compilePatterns_eq (ms : Members) :
    compilePatterns plan opened location ms = (plan.compiler opened).patterns location ms := by
  induction ms with
  | nil => rw [compilePatterns, Compiler.patterns]
  | cons e ms ih =>
    rw [compilePatterns, Compiler.patterns, ih]
    rfl

theorem compileDependencies_eq (ms : Members) :
    compileDependencies plan opened location ms =
      (plan.compiler opened).dependencies location ms := by
  induction ms with
  | nil => rw [compileDependencies, Compiler.dependencies]
  | cons e ms ih =>
    obtain ⟨name, v⟩ := e
    rw [compileDependencies.eq_def, Compiler.dependencies]
    dsimp only
    rw [ih]
    cases v <;> rfl

theorem compileAdditionalItems_eq (limit : Nat) (v : Json) :
    compileAdditionalItems plan opened location limit v =
      (plan.compiler opened).additionalItems location limit v := by
  rw [compileAdditionalItems.eq_def]
  cases v with
  | bool b => cases b <;> rfl
  | _ => rfl

theorem compileFormat_eq (v : Json) :
    compileFormat plan opened location v =
      (plan.compiler opened).format location plan.options v := by
  rw [compileFormat.eq_def]
  cases v with
  | string name => rfl
  | _ => rfl

theorem compileKeyword_eq (ms : Members) (k : Keyword) (v : Json) :
    compileKeyword plan opened location ms k v =
      (plan.compiler opened).keyword location ms k v := by
  rw [compileKeyword.eq_def]
  simp only [compileItems_eq, compilePatterns_eq, compileDependencies_eq]
  rfl

theorem compileObject_eq (ms : Members) :
    compileNode plan opened location (.object ms) =
      (plan.compiler opened).object location plan.options ms := by
  rw [compileNode]
  simp only [compileItems_eq, compileMembers_eq, compileAdditionalItems_eq, compileFormat_eq,
    compileKeyword_eq]
  -- the look-ups differ only in the proofs that their results are parts of the object
  rw [Compiler.object]
  congr 1
  funext _
  congr 1
  funext heading
  congr 1
  · split
    · next xs v hv ht _ => rw [ht, Option.mem_def.1 hv]
    · next h =>
      split
      · next xs v ht hv => exact absurd (Option.attach_eq_some _ ⟨v, hv⟩) (h xs v hv ht)
      · rfl
  funext extra
  congr 1
  · split
    · next v hv _ => rw [Option.mem_def.1 hv]
    · next h => rw [Option.attach_eq_none_iff.1 h]
  funext format
  congr 1
  · congr 1
    funext k
    split
    · next v hv ht _ => rw [ht, Option.mem_def.1 hv]
    · next h =>
      split
      · next v ht hv => exact absurd (Option.attach_eq_some _ ⟨v, hv⟩) (h v hv ht)
      · rfl
  funext single
  congr 1
  · rw [Compiler.parts]
    have hnone (h : ∀ xs (hxs : ms.lookup "items" = some (.array xs)),
        (ms.lookup "items").attach = some ⟨.array xs, hxs⟩ → False) : tuple? ms = none := by
      rw [Option.eq_none_iff_forall_ne_some]
      intro xs hxs
      exact h xs (tuple?_eq_some.1 hxs) (Option.attach_eq_some _ ⟨_, tuple?_eq_some.1 hxs⟩)
    split
    · next xs hxs _ => rw [tuple?_eq_some.2 hxs]
    · next ps hps _ h => rw [hnone h, Option.mem_def.1 hps]
    · next y hobject _ h =>
      obtain ⟨y, hy⟩ := y
      rw [hnone h, hy]
      cases y with
      | object ps => exact (hobject ps hy rfl).elim
      | _ => rfl
    · next h' h => rw [hnone h, Option.attach_eq_none_iff.1 h']

/-- **Compiling a schema is compiling it by compiling what is below it.** -/
theorem compileNode_eq (x : Json) :
    compileNode plan opened location x =
      (plan.compiler opened).schema location plan.options x := by
  cases x with
  | object ms => exact compileObject_eq plan opened location ms
  | bool b => rw [compileNode]; rfl
  | _ =>
    rw [compileNode]
    · rfl
    all_goals simp

/-- **Compiling a target** does nothing if it is open or compiled, or if there is no such target. -/
theorem compileTarget_run (k : Target) (table : Subroutines) :
    compileTarget plan opened location k table =
      if k ∈ opened then .ok (true, table)
      else match table.lookup k, plan.targets.lookup k with
        | some _, _ => .ok (true, table)
        | none, none => .ok (false, table)
        | none, some x => (compileNode plan (k :: opened) location x table).map fun r =>
          (true, (k, r.1) :: r.2) := by
  rw [compileTarget]
  split
  · rfl
  · rw [Build.get_bind]
    cases table.lookup k with
    | some n => rfl
    | none =>
      rcases ht : (plan.targets.lookup k).attach with _ | ⟨x, hx⟩
      · show Except.ok (false, table) = _
        rw [Option.attach_eq_none_iff.1 ht]
      · show (compileNode plan (k :: opened) location x table >>= _) = _
        rw [Option.mem_def.1 hx]
        dsimp only
        cases compileNode plan (k :: opened) location x table <;> rfl

/-- The three things that compiling a target can do. -/
theorem compileTarget_cases {k : Target} {table table' : Subroutines} {b : Bool}
    (h : compileTarget plan opened location k table = .ok (b, table')) :
    (k ∈ opened ∨ (table.lookup k).isSome) ∧ b = true ∧ table' = table ∨
    (table.lookup k = none ∧ plan.targets.lookup k = none) ∧ b = false ∧ table' = table ∨
    ∃ x n mid, (k ∉ opened ∧ table.lookup k = none ∧ plan.targets.lookup k = some x) ∧
      compileNode plan (k :: opened) location x table = .ok (n, mid) ∧
      b = true ∧ table' = (k, n) :: mid := by
  rw [compileTarget_run] at h
  split at h
  · next hk =>
    cases h
    exact .inl ⟨.inl hk, rfl, rfl⟩
  · next hk =>
    split at h
    · next n hn =>
      cases h
      exact .inl ⟨.inr (by rw [hn]; rfl), rfl, rfl⟩
    · next hn hx =>
      cases h
      exact .inr (.inl ⟨⟨hn, hx⟩, rfl, rfl⟩)
    · next x hn hx =>
      refine .inr (.inr ?_)
      cases hc : compileNode plan (k :: opened) location x table with
      | error e =>
        rw [hc] at h
        cases h
      | ok r =>
        rw [hc] at h
        cases h
        exact ⟨x, r.1, r.2, ⟨hk, hn, hx⟩, hc, rfl, rfl⟩

/-- What holds of a schema as soon as it holds of all smaller ones, and of the targets that are not
open once they are, holds of all schemas. -/
theorem Plan.induction (plan : Plan) {P : List Target → Json → Prop}
    (step : ∀ opened x, (∀ y, sizeOf y < sizeOf x → P opened y) →
      (∀ k y, plan.targets.lookup k = some y → k ∉ opened → P (k :: opened) y) → P opened x) :
    ∀ opened x, P opened x := by
  have key : ∀ bound opened x, plan.weight opened (2 * sizeOf x) < bound → P opened x := by
    intro bound
    induction bound with
    | zero => exact fun opened x h => absurd h (Nat.not_lt_zero _)
    | succ bound ih =>
      intro opened x h
      refine step opened x (fun y hy => ih opened y ?_) fun k y hy hk => ih (k :: opened) y ?_
      · exact Nat.lt_of_lt_of_le (Plan.weight_part (Nat.mul_lt_mul_of_pos_left hy Nat.two_pos))
          (Nat.le_of_lt_succ h)
      · exact Nat.lt_of_lt_of_le (Plan.weight_open hy hk) (Nat.le_of_lt_succ h)
  exact fun opened x => key _ opened x (Nat.lt_succ_self _)

end Compiling

end JsonSchema
