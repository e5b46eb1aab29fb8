import JsonSchema.Number.Multiple
import JsonSchema.Regex.Pattern
import JsonSchema.TypeName
import JsonSchema.Violation

/-!
# Rules on single values

A rule is a check that looks at one value alone and descends into no schema. It binds values of
one type, `enum` and custom rules apart, and finds at most one fault.

* `Rule.fault?`: the kind of violation of a value, if it breaks the rule.
-/

namespace JsonSchema

inductive Rule where
  | noItemsPast (limit : Nat)
  | format (name : String) (test : String → Bool)
  | uniqueItems
  | enum (options : List Json)
  | pattern (p : Pattern)
  | multipleOf (d : Divisor)
  | maxProperties (limit : Nat)
  | minProperties (limit : Nat)
  | maxItems (limit : Nat)
  | minItems (limit : Nat)
  | maxLength (limit : Nat)
  | minLength (limit : Nat)
  | minimum (limit : Number) (exclusive : Bool)
  | maximum (limit : Number) (exclusive : Bool)
  | custom (check : Json → Option String)

namespace Rule

/-- The kind, unless the condition holds. -/
def demand (holds : Bool) (kind : Violation.Kind) : Option Violation.Kind :=
  if holds then none else some kind

/-- Whether `a` is below `b`, or not above it when the bound counts. -/
def below (a b : Number) (bound : Bool) : Bool := if bound then a.le b else a.lt b

def fault? : Rule → Json → Option Violation.Kind
  | noItemsPast limit, .array xs => demand (decide (xs.length ≤ limit)) .additionalItems
  | format name test, .string s => demand (test s) (.format name)
  | uniqueItems, .array xs => demand (Json.allDifferent xs) .uniqueItems
  | enum options, v => demand (options.any v.same) .enum
  | pattern p, .string s => demand (p.accepts s) .pattern
  | multipleOf d, .number n => demand (d.divides n) .multipleOf
  | maxProperties limit, .object ms => demand (decide (ms.length ≤ limit)) .maxProperties
  | minProperties limit, .object ms => demand (decide (limit ≤ ms.length)) .minProperties
  | maxItems limit, .array xs => demand (decide (xs.length ≤ limit)) .maxItems
  | minItems limit, .array xs => demand (decide (limit ≤ xs.length)) .minItems
  | maxLength limit, .string s => demand (decide (s.length ≤ limit)) .maxLength
  | minLength limit, .string s => demand (decide (limit ≤ s.length)) .minLength
  | minimum limit exclusive, .number n => demand (!below n limit exclusive) .minimum
  | maximum limit exclusive, .number n => demand (!below limit n exclusive) .maximum
  | custom check, v => (check v).map .custom
  | _, _ => none

end Rule

end JsonSchema
