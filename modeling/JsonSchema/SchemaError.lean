import JsonSchema.Path

/-!
# Faults of schemas

A schema that cannot be built has a fault: its place and its cause.

* `SchemaError.Cause`: the causes, with their texts;
* `SchemaError.message`: the text, followed by the place unless that is empty.
-/

namespace JsonSchema

namespace SchemaError

inductive Cause where
  /-- A keyword that is neither built in nor registered. -/
  | unknownKeyword (keyword : String)
  | unknownType (name : String)
  | unrecognizedFormat (name : String)
  /-- A pattern that is not well formed. -/
  | invalidRegex (pattern : String)
  /-- A keyword whose value has the wrong shape. -/
  | invalidKeywordValue (keyword expected : String)
  /-- A place of a schema that holds neither an object nor a boolean. -/
  | invalidSchema
  /-- The text of a custom keyword. -/
  | custom (text : String)
  deriving DecidableEq, Repr

def Cause.text : Cause → String
  | unknownKeyword keyword => "Keyword not supported: " ++ keyword
  | unknownType name => "Unknown type: " ++ name
  | unrecognizedFormat name => "Unrecognized format used: " ++ name
  | invalidRegex pattern => quote pattern ++ " is not a valid regular expression"
  | invalidKeywordValue keyword expected => "\"" ++ keyword ++ "\" must be " ++ expected
  | invalidSchema => "Schema must be an object or a boolean"
  | custom text => text

end SchemaError

structure SchemaError where
  location : Path
  cause : SchemaError.Cause
  deriving DecidableEq, Repr

namespace SchemaError

def message (e : SchemaError) : String :=
  if e.location = [] then e.cause.text
  else e.cause.text ++ " (at " ++ e.location.pointer ++ ")"

end SchemaError

end JsonSchema
