import JsonSchema.Node.Apply
import JsonSchema.Node.Compile

/-!
# Validators

A validator is built once from a schema and checks any number of values. It lists what is wrong
with a value, tells whether anything is, or changes a value as its options allow.

* `Options.build`: a validator, or the first fault of the schema;
* `Validator.validate`, `Validator.isValid`: checking;
* `Validator.validateMut`, `filter`: changing.
-/

namespace JsonSchema

structure Validator where
  root : Node
  subroutines : Subroutines
  schema : Json
  options : Options

/-- Build a validator for a schema. -/
def Options.build (o : Options) (schema : Json) : Except SchemaError Validator := do
  let (root, subroutines) ← compile o schema
  return ⟨root, subroutines, schema, o⟩

namespace Validator

def scope (w : Validator) : Scope := ⟨w.subroutines, w.options.greedy⟩

def recording (w : Validator) : Recording := if w.options.verbose then .verbose else .brief

def changes (w : Validator) : Changes :=
  ⟨w.options.filter, w.options.filter || w.options.useDefaults⟩

/-- The violations of a run that counted any. -/
def verdict (t : Tally) : Except (List Violation) Unit :=
  if t.count = 0 then .ok () else .error t.records

def validate (w : Validator) (v : Json) : Except (List Violation) Unit :=
  verdict (w.root.check w.scope v {} (Tally.start w.recording))

/-- Whether a run that only counts finds nothing. -/
def isValid (w : Validator) (v : Json) : Bool :=
  (w.root.check w.scope v {} (Tally.start .off)).count == 0

/-- Check and change a value, going down at most `depth` levels. -/
def validateMutWithin (w : Validator) (depth : Nat) (v : Json) :
    Option (Except (List Violation) Unit × Json) := do
  let (v, t) ← w.root.apply w.scope w.changes depth v {} (Tally.start w.recording)
  return (verdict t, v)

/-- The number of values in the documents of a validator. -/
def size (w : Validator) : Nat :=
  Json.sizeItems (Targets.documents w.schema w.options)

/-- The levels that a mutating run may go down. Without defaults the levels of the value are
enough, and each default adds its own levels below a place of the documents. -/
def depth (w : Validator) (v : Json) : Nat := (v.size + w.size) * (w.size + 1)

/-- Check and change a value. There is no result if its defaults contain one another forever. -/
def validateMut (w : Validator) (v : Json) : Option (Except (List Violation) Unit × Json) :=
  w.validateMutWithin (w.depth v) v

end Validator

/-! ## Shortcuts -/

def isValid (schema v : Json) : Except SchemaError Bool := do
  return (← Options.build {} schema).isValid v

def validate (schema v : Json) : Except SchemaError (Except (List Violation) Unit) := do
  return (← Options.build {} schema).validate v

def filter (schema v : Json) : Except SchemaError (Option Json) := do
  return ((← Options.build { filter := true } schema).validateMut v).map Prod.snd

end JsonSchema
