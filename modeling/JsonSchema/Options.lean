import JsonSchema.Json.Quoted
import JsonSchema.Reference
import JsonSchema.SchemaError
import JsonSchema.Unicode.Hidden

/-!
# Options

Options register formats, external documents and custom keywords by name, and choose how runs
report and what they change. A later registration under a name replaces an earlier one.

* `Format`, `KeywordRule`: what can be registered;
* `Options.describe`: a one-line text of the options.
-/

namespace JsonSchema

/-- A registered format. Patterns and predicates bind strings only. -/
inductive Format where
  /-- A pattern for the whole string. -/
  | pattern (text : String)
  | predicate (test : String → Bool)
  /-- A schema that the value is checked against in place. -/
  | schema (s : Json)

/-- A custom keyword: from the schema object, the keyword's value and its place it makes a check,
which gives the text of the violation if there is one. -/
abbrev KeywordRule := Members → Json → Path → Except SchemaError (Json → Option String)

structure Options where
  formats : List (String × Format) := []
  documents : Documents := []
  keywords : List (String × KeywordRule) := []
  /-- Mutating runs remove what `additionalProperties: false` rejects, and fill in defaults. -/
  filter : Bool := false
  /-- Mutating runs fill in defaults. -/
  useDefaults : Bool := false
  verbose : Bool := false
  /-- Missing properties do not stop the other checks of an object. -/
  greedy : Bool := false

namespace Options

def withFormat (o : Options) (name : String) (f : Format) : Options :=
  { o with formats := (name, f) :: o.formats }

def withDocument (o : Options) (key : String) (document : Json) : Options :=
  { o with documents := (key, document) :: o.documents }

def withKeyword (o : Options) (name : String) (rule : KeywordRule) : Options :=
  { o with keywords := (name, rule) :: o.keywords }

/-! ## Describing options -/

/-- The distinct names in ascending order. -/
def sortedNames {α : Type} (entries : List (String × α)) : List String :=
  (entries.map Prod.fst).eraseDups.mergeSort fun a b => decide (a ≤ b)

/-- The escaped form of one character of a name: characters that do not show are given by number. -/
def escapeChar (c : Char) : List Char :=
  if c = '"' then ['\\', '"']
  else if c = '\\' then ['\\', '\\']
  else if c = '\n' then ['\\', 'n']
  else if c = '\r' then ['\\', 'r']
  else if c = '\t' then ['\\', 't']
  else if c.toNat = 0 then ['\\', '0']
  else if Unicode.isHidden c then
    ['\\', 'u', '\x7b'] ++ Nat.toDigits 16 c.toNat ++ ['\x7d']
  else [c]

def quoteName (s : String) : String :=
  String.ofList ('"' :: s.toList.flatMap escapeChar ++ ['"'])

def listText (names : List String) : String :=
  "[" ++ ", ".intercalate (names.map quoteName) ++ "]"

def flagText (b : Bool) : String := if b then "true" else "false"

def describe (o : Options) : String :=
  "ValidationOptions \x7b formats: " ++ listText (sortedNames o.formats)
    ++ ", schemas: " ++ listText (sortedNames o.documents)
    ++ ", keywords: " ++ listText (sortedNames o.keywords)
    ++ ", filter: " ++ flagText o.filter
    ++ ", use_defaults: " ++ flagText o.useDefaults
    ++ ", verbose: " ++ flagText o.verbose
    ++ ", greedy: " ++ flagText o.greedy ++ " \x7d"

end Options

end JsonSchema
