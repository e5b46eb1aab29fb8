import JsonSchema.Node.Shape

/-!
# Compiling schemas

A schema compiles to a node, and on the way the targets that it refers to compile to the entries of
a table. A target is opened when a reference first reaches it, and a reference to a target that is
open or compiled only names it; the place of a target is thus the place that opened it. Each step
goes to a smaller schema or opens one more of the targets that the documents hold.

* `Targets.of`: the targets that the documents hold;
* `compileNode`: the node of a schema;
* `compile`: the node and the table of a schema document.
-/

namespace JsonSchema

/-! ## Targets -/

mutual
def Json.references : Json → List String
  | .object ms => referencesMembers ms
  | .array xs => referencesItems xs
  | _ => []

def Json.referencesItems : List Json → List String
  | [] => []
  | x :: xs => x.references ++ referencesItems xs

def Json.referencesMembers : Members → List String
  | [] => []
  | (name, .string s) :: ms =>
    if name = "$ref" then s :: referencesMembers ms else referencesMembers ms
  | (_, v) :: ms => v.references ++ referencesMembers ms
end

abbrev Targets := List (Target × Json)

namespace Targets

def formatSchemas (o : Options) : List (String × Json) :=
  o.formats.filterMap fun f => match f.2 with
    | .schema s => some (f.1, s)
    | _ => none

/-- The root, the external documents and the formats that are schemas. -/
def documents (root : Json) (o : Options) : List Json :=
  root :: o.documents.map Prod.snd ++ (formatSchemas o).map Prod.snd

/-- What a reference denotes, if it is a schema. -/
def ofReference? (root : Json) (o : Options) (text : String) : Option (Target × Json) :=
  ((resolve? root o.documents text).filter Json.isSchema).map fun s => (.reference text, s)

/-- The targets that the documents hold: the references that denote a schema, and the formats that
are schemas. -/
def of (root : Json) (o : Options) : Targets :=
  ((documents root o).flatMap Json.references).filterMap (ofReference? root o)
    ++ (formatSchemas o).map fun f => (.format f.1, f.2)

end Targets

/-! ## Compiling -/

/-- Steps that may fail and that add compiled targets to the table. -/
abbrev Build (α : Type) := StateT Subroutines (Except SchemaError) α

/-- What compiling needs to know. -/
structure Plan where
  options : Options
  targets : Targets

namespace Plan

/-- The weight of a step while some targets are open. A target to open weighs more than any schema
among the targets, so every step is lighter than the one that takes it. -/
noncomputable def weight (plan : Plan) (opened : List Target) (size : Nat) : Nat :=
  Subroutines.openCount plan.targets opened * (2 * sizeOf plan.targets) + size

variable {plan : Plan} {opened : List Target} {size size' : Nat}

theorem weight_part (h : size' < size) : plan.weight opened size' < plan.weight opened size :=
  Nat.add_lt_add_left h _

theorem weight_open {k : Target} {v : Json} (hv : plan.targets.lookup k = some v)
    (hk : k ∉ opened) : plan.weight (k :: opened) (2 * sizeOf v) < plan.weight opened size := by
  refine Nat.lt_of_lt_of_le
    (Nat.add_lt_add_left (Nat.mul_lt_mul_of_pos_left (lookup_lt hv) Nat.two_pos) _) ?_
  refine Nat.le_trans ?_ (Nat.le_add_right _ _)
  rw [← Nat.succ_mul]
  exact Nat.mul_le_mul_right _ (Subroutines.open_lt hv hk)

end Plan

/-- Refuse keywords that are neither known nor registered, in their order. -/
def checkKeywords (o : Options) (location : Path) : Members → Reads Unit
  | [] => .ok ()
  | (keyword, _) :: ms =>
    bif Keyword.isKnown keyword || (o.keywords.lookup keyword).isSome then
      checkKeywords o location ms
    else .error ⟨location ++ [.name keyword], .unknownKeyword keyword⟩

/-- The list under `items`, if it is one. -/
def tuple? (ms : Members) : Option (List Json) :=
  match ms.lookup "items" with
  | some (.array xs) => some xs
  | _ => none

/-- The accepted types and the `type` as written. Next to a tuple, the type is that of arrays. -/
def readDeclaredType (location : Path) (ms : Members) : Reads (Option TypeSet × Option Json) :=
  match tuple? ms, ms.lookup "type" with
  | some _, _ => .ok (some (.ofList [.array]), some (.string "array"))
  | none, some v => do return (← readType location v, some v)
  | none, none => .ok (none, none)

def readHeading (location : Path) (ms : Members) : Reads Heading := do
  let (types, declaredType) ← readDeclaredType location ms
  let (required, requiredNames) ← readRequired location (ms.lookup "required")
  return ⟨location, ms.lookup "default", required, types, declaredType, requiredNames⟩

def skipsNull (ms : Members) : Bool :=
  match ms.lookup "type" with
  | some (.array names) => names.any fun v => v.string? == some "null"
  | _ => false

/-- The checks of the registered keywords, in the order of the members. -/
def customChecks (o : Options) (location : Path) (ms : Members) : Members → Reads (List Check)
  | [] => .ok []
  | (keyword, v) :: rest =>
    match o.keywords.lookup keyword with
    | none => customChecks o location ms rest
    | some rule => do
      let place := location ++ [.name keyword]
      let check ← rule ms v place
      return .rule (.custom check) place :: (← customChecks o location ms rest)

mutual
/-- The node of a schema at a place, while some targets are open. -/
def compileNode (plan : Plan) (opened : List Target) (location : Path) (schema : Json) :
    Build Node :=
  match schema with
  | .object ms => do
    checkKeywords plan.options location ms
    let heading ← readHeading location ms
    let extra ← (match tuple? ms, (ms.lookup "additionalItems").attach with
      | some xs, some ⟨v, _⟩ => compileAdditionalItems plan opened location xs.length v
      | _, _ => pure [])
    let format ← (match (ms.lookup "format").attach with
      | some ⟨v, _⟩ => compileFormat plan opened location v
      | none => pure [])
    let single ← Keyword.inOrder.mapM fun k =>
      match plan.options.keywords.lookup k.name, (ms.lookup k.name).attach with
      | none, some ⟨v, _⟩ => compileKeyword plan opened location ms k v
      | _, _ => pure []
    let parts ← (match (ms.lookup "items").attach, (ms.lookup "properties").attach with
      | some ⟨.array xs, _⟩, _ => do
        pure [.tuple (← compileItems plan opened (location ++ [.name "items"]) 0 xs)]
      | _, some ⟨.object ps, _⟩ => do
        pure [.properties (← compileMembers plan opened (location ++ [.name "properties"]) ps)
          (skipsNull ms)]
      | _, some _ => throw (wrongShape location "properties" "an object")
      | _, none => pure [])
    let custom ← customChecks plan.options location ms ms
    return .mk heading (extra ++ format) (single.flatten ++ parts ++ custom)
  | .bool _ => return .trivial location
  | _ => throw ⟨location, .invalidSchema⟩
termination_by plan.weight opened (2 * sizeOf schema)
decreasing_by
  all_goals have := lookup_lt ‹_›
  all_goals try simp only [Json.array.sizeOf_spec, Json.object.sizeOf_spec] at this
  all_goals exact Plan.weight_part (by simp only [Json.object.sizeOf_spec]; omega)

/-- The check of the items past a tuple. -/
def compileAdditionalItems (plan : Plan) (opened : List Target) (location : Path) (limit : Nat)
    (v : Json) : Build (List Check) :=
  let place := location ++ [.name "additionalItems"]
  match v with
  | .bool false => return [.rule (.noItemsPast limit) place]
  | .bool true => return []
  | .object ms => do return [.additionalItems limit (← compileNode plan opened place (.object ms))]
  | _ => throw (wrongShape location "additionalItems" "a boolean or an object")
termination_by plan.weight opened (2 * sizeOf v + 1)
decreasing_by
  all_goals exact Plan.weight_part (Nat.lt_succ_self _)

def compileFormat (plan : Plan) (opened : List Target) (location : Path) (v : Json) :
    Build (List Check) :=
  match v with
  | .string name =>
    let place := location ++ [.name "format"]
    match plan.options.formats.lookup name with
    | some (.schema _) => do
      let _ ← compileTarget plan opened place (.format name)
      return [.schemaFormat name]
    | _ => do return [.rule (← readFormat plan.options location name) place]
  | _ => throw (wrongShape location "format" "a string")
termination_by plan.weight opened (2 * sizeOf v + 1)
decreasing_by
  all_goals exact Plan.weight_part (by simp only [Json.string.sizeOf_spec]; omega)

def compileKeyword (plan : Plan) (opened : List Target) (location : Path) (ms : Members)
    (k : Keyword) (v : Json) : Build (List Check) :=
  let place := location ++ [.name k.name]
  match k, v with
  | .dependencies, .object entries => do
    return [.dependencies (← compileDependencies plan opened place entries)]
  | .dependencies, _ => throw (wrongShape location k.name "an object")
  | .additionalProperties, .bool true => return []
  | .additionalProperties, .bool false => do
    return [.closed (← Declared.read location ms) place]
  | .additionalProperties, .object ps => do
    let declared ← Declared.read location ms
    return [.additional declared (← compileNode plan opened place (.object ps))]
  | .additionalProperties, _ => throw (wrongShape location k.name "a boolean or an object")
  | .reference, .string text => do
    let compiled ← compileTarget plan opened place (.reference text)
    return if compiled then [.reference text place] else []
  | .reference, _ => throw (wrongShape location k.name "a string")
  | .not, v => do return [.negation (← compileNode plan opened place v) place]
  | .items, .array _ => return []
  | .items, v => do return [.items (← compileNode plan opened place v)]
  | .patternProperties, .object [] => return []
  | .patternProperties, .object entries => do
    return [.patternProperties (← compilePatterns plan opened place entries)]
  | .patternProperties, _ => throw (wrongShape location k.name "an object")
  | .allOf, .array xs => do return [.allOf (← compileItems plan opened place 0 xs)]
  | .allOf, _ => throw (wrongShape location k.name "an array")
  | .anyOf, .array [] => return []
  | .anyOf, .array xs => do return [.anyOf (← compileItems plan opened place 0 xs) place]
  | .anyOf, _ => throw (wrongShape location k.name "an array")
  | .oneOf, .array [] => return []
  | .oneOf, .array xs => do return [.oneOf (← compileItems plan opened place 0 xs) place]
  | .oneOf, _ => throw (wrongShape location k.name "an array")
  | k, v => do return (← k.rule? location ms v).toList.map fun r => .rule r place
termination_by plan.weight opened (2 * sizeOf v + 1)
decreasing_by
  all_goals try simp only [Json.array.sizeOf_spec, Json.object.sizeOf_spec,
    Json.string.sizeOf_spec]
  all_goals exact Plan.weight_part (by omega)

def compileItems (plan : Plan) (opened : List Target) (location : Path) (i : Nat)
    (schemas : List Json) : Build (List Node) :=
  match schemas with
  | [] => return []
  | x :: xs => do
    let n ← compileNode plan opened (location ++ [.index i]) x
    return n :: (← compileItems plan opened location (i + 1) xs)
termination_by plan.weight opened (2 * sizeOf schemas)
decreasing_by
  all_goals exact Plan.weight_part (by simp only [List.cons.sizeOf_spec]; omega)

def compileMembers (plan : Plan) (opened : List Target) (location : Path) (schemas : Members) :
    Build (List (String × Node)) :=
  match schemas with
  | [] => return []
  | (name, v) :: ms => do
    let n ← compileNode plan opened (location ++ [.name name]) v
    return (name, n) :: (← compileMembers plan opened location ms)
termination_by plan.weight opened (2 * sizeOf schemas)
decreasing_by
  all_goals simp only [List.cons.sizeOf_spec, Prod.mk.sizeOf_spec]
  all_goals exact Plan.weight_part (by omega)

def compilePatterns (plan : Plan) (opened : List Target) (location : Path) (schemas : Members) :
    Build (List (Pattern × Node)) :=
  match schemas with
  | [] => return []
  | (text, v) :: ms => do
    let p ← readPattern (location ++ [.name text]) text
    let n ← compileNode plan opened (location ++ [.name text]) v
    return (p, n) :: (← compilePatterns plan opened location ms)
termination_by plan.weight opened (2 * sizeOf schemas)
decreasing_by
  all_goals simp only [List.cons.sizeOf_spec, Prod.mk.sizeOf_spec]
  all_goals exact Plan.weight_part (by omega)

/-- The dependencies: one name, a list of names, or a schema. -/
def compileDependencies (plan : Plan) (opened : List Target) (location : Path)
    (entries : Members) : Build (List (String × Dependency)) :=
  match entries with
  | [] => return []
  | (name, v) :: ms => do
    let place := location ++ [.name name]
    let d ← (match v with
      | .string other => pure (.names [other] place)
      | .array names => do
        pure (.names (← readNames
          ⟨place, .invalidKeywordValue "dependencies" "an array of strings"⟩ names) place)
      | v => do pure (.schema (← compileNode plan opened place v)))
    return (name, d) :: (← compileDependencies plan opened location ms)
termination_by plan.weight opened (2 * sizeOf entries)
decreasing_by
  all_goals simp only [List.cons.sizeOf_spec, Prod.mk.sizeOf_spec]
  all_goals exact Plan.weight_part (by omega)

/-- Compile a target at a place unless it is open or compiled. The result tells whether there is
such a target. -/
def compileTarget (plan : Plan) (opened : List Target) (location : Path) (k : Target) :
    Build Bool := do
  if _h : k ∈ opened then return true
  else match (← get).lookup k, (plan.targets.lookup k).attach with
    | some _, _ => return true
    | none, none => return false
    | none, some ⟨schema, _⟩ => do
      let n ← compileNode plan (k :: opened) location schema
      modify fun table => (k, n) :: table
      return true
termination_by plan.weight opened 1
decreasing_by
  exact Plan.weight_open ‹_› _h
end

/-- The node of a schema document, and the table of the targets that it reaches. -/
def compile (o : Options) (schema : Json) : Except SchemaError (Node × Subroutines) :=
  (compileNode ⟨o, .of schema o⟩ [] [] schema).run []

end JsonSchema
