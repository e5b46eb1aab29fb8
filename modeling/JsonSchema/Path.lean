import JsonSchema.Json.Basic
import JsonSchema.Json.Quoted
import JsonSchema.Text.Digits
import JsonSchema.Unicode.Numeric

/-!
# Paths into documents

A path is a sequence of member names and item indices from the root. It is written in two ways: as
a field, `data.items[0]["hello world"]`, for values, and as a pointer, `/items/0/hello world`, for
places of a schema.

* `Json.at?`: the value at a path;
* `Path.field`, `Path.pointer`: the two texts;
* `Json.at?_append`: looking up in two steps.
-/

namespace JsonSchema

inductive Segment where
  | name (s : String)
  | index (n : Nat)
  deriving DecidableEq, Repr

abbrev Path := List Segment

/-! ## Looking up -/

namespace Json

def child? : Json → Segment → Option Json
  | object ms, .name s => ms.lookup s
  | array xs, .index n => xs[n]?
  | _, _ => none

def at? : Json → Path → Option Json
  | v, [] => some v
  | v, s :: p => (v.child? s).bind fun w => w.at? p

theorem at?_append (v : Json) (p q : Path) :
    v.at? (p ++ q) = (v.at? p).bind fun w => w.at? q := by
  induction p generalizing v with
  | nil => rfl
  | cons s p ih =>
    simp only [List.cons_append, at?, Option.bind_assoc]
    congr 1
    funext w
    exact ih w

end Json

/-! ## Fields -/

/-- The first character of a name that can stand after a point. -/
def isNameStart (c : Char) : Bool := Unicode.isAlphabetic c || c = '_' || c = '$'

def isNamePart (c : Char) : Bool := Unicode.isAlphanumeric c || c = '_' || c = '$'

def isIdentifier : List Char → Bool
  | [] => false
  | c :: cs => isNameStart c && cs.all isNamePart

namespace Segment

/-- A point and the name, or brackets around the index or the quoted name. -/
def field : Segment → List Char
  | name s =>
    if isIdentifier s.toList then '.' :: s.toList
    else '[' :: '"' :: Quoted.escapeAll s.toList ++ ['"', ']']
  | index n => '[' :: natText n ++ [']']

/-! ## Pointers -/

/-- A tilde is written `~0` and a slash `~1`. -/
def escapeChar (c : Char) : List Char :=
  if c = '~' then ['~', '0'] else if c = '/' then ['~', '1'] else [c]

def pointer : Segment → List Char
  | name s => '/' :: s.toList.flatMap escapeChar
  | index n => '/' :: natText n

end Segment

namespace Path

def field (p : Path) : String := String.ofList ("data".toList ++ p.flatMap Segment.field)

def pointer (p : Path) : String := String.ofList (p.flatMap Segment.pointer)

end Path

end JsonSchema
