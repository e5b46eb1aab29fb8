import JsonSchema.Json.Equality
import JsonSchema.Path

/-!
# Violations and their tally

A violation names the field that failed and the kind of check; in verbose runs it also holds the
offending value, the declared type and the place of the check. A run reports violations to a
tally, which counts all of them and records them when it is asked to.

* `Violation.message`, `summary`: the texts;
* `Tally.report`: counting and recording one violation;
* `Tally.passes`: whether a check reports nothing, its reports being dropped.
-/

namespace JsonSchema

/-! ## Violations -/

namespace Violation

inductive Kind where
  | required
  | type
  | additionalItems
  | format (name : String)
  | uniqueItems
  | enum
  | dependencies
  | additionalProperties
  | reference
  | not
  | pattern
  | anyOf
  | oneOf
  | multipleOf
  | maxProperties
  | minProperties
  | maxItems
  | minItems
  | maxLength
  | minLength
  | minimum
  | maximum
  /-- The text of a custom keyword. -/
  | custom (text : String)
  deriving DecidableEq, Repr

def Kind.message : Kind → String
  | required => "is required"
  | type => "is the wrong type"
  | additionalItems => "has additional items"
  | format name => "must be " ++ name ++ " format"
  | uniqueItems => "must be unique"
  | enum => "must be an enum value"
  | dependencies => "dependencies not set"
  | additionalProperties => "has additional properties"
  | reference => "referenced schema does not match"
  | not => "negative schema matches"
  | pattern => "pattern mismatch"
  | anyOf => "no schemas match"
  | oneOf => "no (or more than one) schemas match"
  | multipleOf => "has a remainder"
  | maxProperties => "has more properties than allowed"
  | minProperties => "has less properties than allowed"
  | maxItems => "has more items than allowed"
  | minItems => "has less items than allowed"
  | maxLength => "has longer length than allowed"
  | minLength => "has less length than allowed"
  | minimum => "is less than minimum"
  | maximum => "is more than maximum"
  | custom text => text

/-- What a verbose run adds to a violation. -/
structure Details where
  /-- The offending value, if there is one. For additional properties it is the rejected field. -/
  value : Option Json
  /-- The `type` of the schema object, as written. -/
  declaredType : Option Json
  /-- The place of the check in the schema. -/
  schemaPath : Path
  deriving DecidableEq

end Violation

structure Violation where
  path : Path
  kind : Violation.Kind
  details : Option Violation.Details
  deriving DecidableEq

namespace Violation

def field (v : Violation) : String := v.path.field

def message (v : Violation) : String := v.kind.message

/-- The violation without its details. -/
def brief (v : Violation) : Violation := { v with details := none }

def line (v : Violation) : String := v.field ++ " " ++ v.message

/-- One line for each violation. -/
def summary (vs : List Violation) : String := "\n".intercalate (vs.map line)

end Violation

/-! ## The tally of a run -/

/-- What a tally keeps of the violations reported to it. -/
inductive Recording where
  | off
  | brief
  | verbose
  deriving DecidableEq, Repr

structure Tally where
  recording : Recording
  count : Nat
  records : List Violation

namespace Tally

/-- The tally at the start of a run. -/
def start (recording : Recording) : Tally := ⟨recording, 0, []⟩

def keep : Recording → Violation → List Violation
  | .off, _ => []
  | .brief, v => [v.brief]
  | .verbose, v => [v]

/-- Count a violation, and record it as far as the tally records. -/
def report (t : Tally) (v : Violation) : Tally :=
  ⟨t.recording, t.count + 1, t.records ++ keep t.recording v⟩

/-- Whether a check reports nothing; it is run on a tally of its own. -/
def passes (check : Tally → Tally) : Bool := (check (start .off)).count == 0

theorem count_report (t : Tally) (v : Violation) : (t.report v).count = t.count + 1 := rfl

end Tally

end JsonSchema
