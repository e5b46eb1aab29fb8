import JsonSchema.Format.Builtin
import JsonSchema.Keyword
import JsonSchema.Node.Basic
import JsonSchema.Options
import JsonSchema.Regex.Pattern

/-!
# Shapes of keyword values

How the values of keywords without nested schemas are read. A value of another shape is a fault
at the keyword, which names the shape that was expected.

* `readType`, `readRequired`: what a heading says;
* `Keyword.rule?`: the rule of a keyword that needs no schema;
* `readPattern`, `Declared.read`: patterns.
-/

namespace JsonSchema

abbrev Reads (α : Type) := Except SchemaError α

/-- The fault of a keyword whose value has the wrong shape. -/
def wrongShape (location : Path) (keyword expected : String) : SchemaError :=
  ⟨location ++ [.name keyword], .invalidKeywordValue keyword expected⟩

/-! ## Headings -/

/-- A type name, or nothing for `any`. -/
def readTypeName (location : Path) : Json → Reads (Option TypeName)
  | .string s =>
    if s = "any" then .ok none
    else match TypeName.ofName? s with
      | some t => .ok (some t)
      | none => .error ⟨location ++ [.name "type"], .unknownType s⟩
  | _ => .error (wrongShape location "type" "a string or an array of strings")

/-- One type or a list of types. Any value is accepted if the list is empty or holds `any`. -/
def readType (location : Path) : Json → Reads (Option TypeSet)
  | .array names => do
    let types ← names.mapM (readTypeName location)
    return if types = [] ∨ none ∈ types then none else some (.ofList (types.filterMap id))
  | v => do return (← readTypeName location v).map fun t => .ofList [t]

def readNames (fault : SchemaError) : List Json → Reads (List String)
  | [] => .ok []
  | .string s :: vs => do return s :: (← readNames fault vs)
  | _ :: _ => .error fault

/-- Whether the value itself is required, and which members are. -/
def readRequired (location : Path) : Option Json → Reads (Bool × List String)
  | none => .ok (false, [])
  | some (.bool b) => .ok (b, [])
  | some (.array names) => do
    return (false, ← readNames (wrongShape location "required" "an array of strings") names)
  | some _ => .error (wrongShape location "required" "a boolean or an array of strings")

/-! ## Patterns -/

def readPattern (place : Path) (text : String) : Reads Pattern :=
  match Pattern.parse? text with
  | some p => .ok p
  | none => .error ⟨place, .invalidRegex text⟩

def wholeText (text : String) : String := "^(?:" ++ text ++ ")$"

namespace Declared

/-- The declared names: the positions of a tuple, or else the members of `properties`. -/
def namesOf (ms : Members) : List String :=
  match ms.lookup "items", ms.lookup "properties" with
  | some (.array xs), _ => (List.range xs.length).map fun n => String.ofList (natText n)
  | _, some (.object ps) => ps.map Prod.fst
  | _, _ => []

/-- The declared patterns, as written. -/
def patternsOf (ms : Members) : List String :=
  match ms.lookup "patternProperties" with
  | some (.object ps) => ps.map Prod.fst
  | _ => []

def read (location : Path) (ms : Members) : Reads Declared := do
  let patterns ← (patternsOf ms).mapM fun text =>
    readPattern (location ++ [.name "patternProperties", .name text]) text
  return ⟨namesOf ms, patterns⟩

end Declared

/-! ## Rules -/

def readFormat (o : Options) (location : Path) (name : String) : Reads Rule :=
  let place := location ++ [.name "format"]
  match o.formats.lookup name with
  | some (.predicate test) => .ok (.format name test)
  | some (.pattern text) => do
    let p ← readPattern place (wholeText text)
    return .format name p.accepts
  | _ =>
    match Format.builtin? name with
    | some test => .ok (.format name test)
    | none => .error ⟨place, .unrecognizedFormat name⟩

def readSize (location : Path) (keyword : String) (v : Json) : Reads Nat :=
  match v with
  | .number n =>
    match n.size? with
    | some size => .ok size
    | none => .error (wrongShape location keyword "a non-negative integer")
  | _ => .error (wrongShape location keyword "a non-negative integer")

def readBound (location : Path) (ms : Members) (keyword exclusive : String) (v : Json) :
    Reads (Number × Bool) :=
  match v with
  | .number n =>
    match ms.lookup exclusive with
    | none => .ok (n, false)
    | some (.bool b) => .ok (n, b)
    | some _ => .error (wrongShape location exclusive "a boolean")
  | _ => .error (wrongShape location keyword "a number")

/-- The rule of a keyword that needs no schema, if its value sets one. -/
def Keyword.rule? (k : Keyword) (location : Path) (ms : Members) (v : Json) :
    Reads (Option Rule) :=
  match k with
  | .uniqueItems =>
    match v with
    | .bool b => .ok (if b then some .uniqueItems else none)
    | _ => .error (wrongShape location k.name "a boolean")
  | .enum =>
    match v with
    | .array [] => .ok none
    | .array xs => .ok (some (.enum xs))
    | _ => .error (wrongShape location k.name "an array")
  | .pattern =>
    match v with
    | .string text => do return some (.pattern (← readPattern (location ++ [.name k.name]) text))
    | _ => .error (wrongShape location k.name "a string")
  | .multipleOf =>
    match v with
    | .number n =>
      match Divisor.ofNumber? n with
      | some d => .ok (some (.multipleOf d))
      | none => .error (wrongShape location k.name "a positive number")
    | _ => .error (wrongShape location k.name "a positive number")
  | .maxProperties => do return some (.maxProperties (← readSize location k.name v))
  | .minProperties => do return some (.minProperties (← readSize location k.name v))
  | .maxItems => do return some (.maxItems (← readSize location k.name v))
  | .minItems => do return some (.minItems (← readSize location k.name v))
  | .maxLength => do return some (.maxLength (← readSize location k.name v))
  | .minLength => do return some (.minLength (← readSize location k.name v))
  | .minimum => do
    let (limit, exclusive) ← readBound location ms k.name "exclusiveMinimum" v
    return some (.minimum limit exclusive)
  | .maximum => do
    let (limit, exclusive) ← readBound location ms k.name "exclusiveMaximum" v
    return some (.maximum limit exclusive)
  | _ => .ok none

end JsonSchema
