/-!
# Keywords

The keywords of schema objects that imply one check each, in the order in which the checks run,
and the names of all other keywords that may occur.

* `Keyword.inOrder`: the keywords with a check of their own;
* `Keyword.isKnown`: whether a keyword may occur in a schema object.
-/

namespace JsonSchema

inductive Keyword where
  | uniqueItems
  | enum
  | dependencies
  | additionalProperties
  | reference
  | not
  | items
  | patternProperties
  | pattern
  | allOf
  | anyOf
  | oneOf
  | multipleOf
  | maxProperties
  | minProperties
  | maxItems
  | minItems
  | maxLength
  | minLength
  | minimum
  | maximum
  deriving DecidableEq, Repr

namespace Keyword

def inOrder : List Keyword :=
  [uniqueItems, enum, dependencies, additionalProperties, reference, not, items,
    patternProperties, pattern, allOf, anyOf, oneOf, multipleOf, maxProperties, minProperties,
    maxItems, minItems, maxLength, minLength, minimum, maximum]

def name : Keyword → String
  | uniqueItems => "uniqueItems"
  | enum => "enum"
  | dependencies => "dependencies"
  | additionalProperties => "additionalProperties"
  | reference => "$ref"
  | not => "not"
  | items => "items"
  | patternProperties => "patternProperties"
  | pattern => "pattern"
  | allOf => "allOf"
  | anyOf => "anyOf"
  | oneOf => "oneOf"
  | multipleOf => "multipleOf"
  | maxProperties => "maxProperties"
  | minProperties => "minProperties"
  | maxItems => "maxItems"
  | minItems => "minItems"
  | maxLength => "maxLength"
  | minLength => "minLength"
  | minimum => "minimum"
  | maximum => "maximum"

/-- Keywords that shape the node, or belong to another keyword. -/
def shaping : List String :=
  ["type", "required", "default", "format", "properties", "additionalItems", "exclusiveMinimum",
    "exclusiveMaximum"]

/-- Keywords that say something about the schema and check nothing. -/
def annotations : List String :=
  ["$schema", "id", "$id", "title", "description", "definitions", "$comment", "examples",
    "readOnly", "writeOnly"]

/-- Keywords that are let through without a check. -/
def unchecked : List String :=
  ["const", "contains", "propertyNames", "if", "then", "else", "contentEncoding",
    "contentMediaType"]

def isKnown (keyword : String) : Bool :=
  shaping.contains keyword || annotations.contains keyword || unchecked.contains keyword
    || inOrder.any fun k => k.name == keyword

theorem mem_inOrder (k : Keyword) : k ∈ inOrder := by cases k <;> decide

theorem isKnown_name (k : Keyword) : isKnown k.name = true := by
  simp only [isKnown, Bool.or_eq_true]
  exact Or.inr (List.any_eq_true.2 ⟨k, mem_inOrder k, by simp⟩)

end Keyword

end JsonSchema
