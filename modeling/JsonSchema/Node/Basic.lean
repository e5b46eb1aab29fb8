import JsonSchema.Rule

/-!
# Compiled schemas

A schema object compiles to a node: a heading and the checks that its keywords imply, in the order
in which they run. Checks hold the nodes of nested schemas. The targets of references and of
formats that are schemas are compiled once each and found in a table, so nodes stay trees while
references form cycles.

* `Heading`: what a node says before its checks;
* `Node`, `Check`, `Dependency`: compiled schemas;
* `Subroutines.open_lt`: entering a target leaves fewer targets to enter.
-/

namespace JsonSchema

/-! ## Headings -/

/-- What a schema object says of a value as a whole. -/
structure Heading where
  /-- The place of the schema object. -/
  location : Path
  default : Option Json := none
  /-- The value itself must be present. -/
  required : Bool := false
  /-- The accepted types; any if there is no set. -/
  types : Option TypeSet := none
  /-- The `type` as written. -/
  declaredType : Option Json := none
  /-- The members that an object must have. -/
  requiredNames : List String := []

namespace Heading

def acceptsType (h : Heading) (v : Json) : Bool :=
  match h.types with
  | none => true
  | some ts => ts.holds v

/-- The required names that an object lacks. Other values lack none. -/
def missing (h : Heading) : Json → List String
  | .object ms => h.requiredNames.filter fun name => !Members.has ms name
  | _ => []

end Heading

/-! ## Nodes -/

/-- The names and patterns that `properties` and `patternProperties` declare. -/
structure Declared where
  names : List String
  patterns : List Pattern

def Declared.has (d : Declared) (name : String) : Bool :=
  d.names.contains name || d.patterns.any fun p => p.accepts name

/-- What is compiled once and shared: the target of a reference, or a format that is a schema. -/
inductive Target where
  | reference (text : String)
  | format (name : String)
  deriving DecidableEq, Repr

mutual
inductive Node where
  /-- A heading, the checks before the required names, and those after them. -/
  | mk (heading : Heading) (head tail : List Check)

inductive Check where
  | rule (r : Rule) (location : Path)
  | dependencies (entries : List (String × Dependency))
  /-- `additionalProperties: false` -/
  | closed (declared : Declared) (location : Path)
  /-- A schema for members that are not declared. -/
  | additional (declared : Declared) (node : Node)
  | reference (text : String) (location : Path)
  /-- A format that is a schema. -/
  | schemaFormat (name : String)
  | negation (node : Node) (location : Path)
  /-- One schema for all items. -/
  | items (node : Node)
  | patternProperties (entries : List (Pattern × Node))
  | allOf (nodes : List Node)
  | anyOf (nodes : List Node) (location : Path)
  | oneOf (nodes : List Node) (location : Path)
  /-- A schema for each position of an array. -/
  | tuple (nodes : List Node)
  /-- Declared members; a null has none if `skipNull` is set. -/
  | properties (entries : List (String × Node)) (skipNull : Bool)
  /-- A schema for the items past a tuple. -/
  | additionalItems (limit : Nat) (node : Node)

inductive Dependency where
  /-- Members that must be present as well. -/
  | names (names : List String) (location : Path)
  /-- A schema that the whole object must match. -/
  | schema (node : Node)
end

namespace Node

/-- The node of a boolean schema, which accepts everything. -/
def trivial (location : Path) : Node := mk { location := location } [] []

def heading : Node → Heading
  | mk h _ _ => h

end Node

/-! ## Subroutines -/

/-- The compiled targets. -/
abbrev Subroutines := List (Target × Node)

namespace Subroutines

/-- The number of entries whose target has not been entered. -/
def openCount {α : Type} (table : List (Target × α)) (entered : List Target) : Nat :=
  (table.filter fun e => !entered.contains e.1).length

theorem open_lt {α : Type} {table : List (Target × α)} {entered : List Target} {k : Target} {a : α}
    (h : table.lookup k = some a) (hk : k ∉ entered) :
    openCount table (k :: entered) < openCount table entered := by
  have hmem := mem_of_lookup h
  have hsub : table.filter (fun e => !(k :: entered).contains e.1) =
      (table.filter fun e => !entered.contains e.1).filter fun e => e.1 != k := by
    rw [List.filter_filter]
    congr 1
    funext e
    rw [List.contains_cons, Bool.not_or]
    rfl
  rw [openCount, openCount, hsub]
  apply List.length_filter_lt_length_iff_exists.2
  exact ⟨(k, a), by simp [hmem]; simpa using hk, by simp⟩

theorem open_le {α : Type} (table : List (Target × α)) (entered : List Target) :
    openCount table entered ≤ table.length :=
  List.length_filter_le _ _

end Subroutines

end JsonSchema
