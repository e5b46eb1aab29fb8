import JsonSchema.Json.Basic
import JsonSchema.Text.Digits

/-!
# Pointers

A pointer is a text of tokens, each after a slash. Objects are entered by the unescaped token and
arrays by the canonical decimal of an index. One number sign in front and one slash at the end are
dropped, so `#/` points to the whole document.

* `Pointer.unescape`: `~1` for a slash and `~0` for a tilde;
* `Pointer.index?`: canonical decimals below `2^64`;
* `Json.pointer?`: the value that a pointer leads to.
-/

namespace JsonSchema

namespace Pointer

/-! ## Tokens -/

/-- Undo the escapes of a token from left to right; any other tilde stands for itself. -/
def unescapeChars : List Char → List Char
  | '~' :: '1' :: cs => '/' :: unescapeChars cs
  | '~' :: '0' :: cs => '~' :: unescapeChars cs
  | c :: cs => c :: unescapeChars cs
  | [] => []

def unescape (s : String) : String := String.ofList (unescapeChars s.toList)

/-- Zero, or a decimal that starts with another digit. -/
def indexChars? : List Char → Option Nat
  | ['0'] => some 0
  | c :: cs =>
    if '1' ≤ c ∧ c ≤ '9' ∧ cs.all Char.isDigit ∧ digitsValue (c :: cs) < UInt64.size then
      some (digitsValue (c :: cs))
    else none
  | [] => none

/-- The index that a token denotes. -/
def index? (s : String) : Option Nat := indexChars? s.toList

/-- The tokens of a text, cut at each slash. -/
def tokens : List Char → List (List Char)
  | [] => [[]]
  | c :: cs =>
    if c = '/' then [] :: tokens cs
    else match tokens cs with
      | [] => [[c]]
      | t :: ts => (c :: t) :: ts

/-! ## Pointers -/

def dropSign : List Char → List Char
  | '#' :: cs => cs
  | cs => cs

def dropSlash (cs : List Char) : List Char := if cs.getLast? = some '/' then cs.dropLast else cs

/-- Whether a text is a pointer: empty or starting with a slash, once a number sign is dropped. -/
def isPointer (cs : List Char) : Bool :=
  match dropSign cs with
  | [] => true
  | c :: _ => c == '/'

end Pointer

namespace Json

def select? : Json → List Char → Option Json
  | object ms, token => ms.lookup (String.ofList token)
  | array xs, token => (Pointer.indexChars? token).bind fun n => xs[n]?
  | _, _ => none

def follow? : Json → List (List Char) → Option Json
  | v, [] => some v
  | v, t :: ts => (v.select? (Pointer.unescapeChars t)).bind fun w => w.follow? ts

def pointerChars? (v : Json) (cs : List Char) : Option Json :=
  match Pointer.dropSlash (Pointer.dropSign cs) with
  | [] => some v
  | c :: cs => if c = '/' then v.follow? (Pointer.tokens cs) else none

/-- The value that a pointer leads to. -/
def pointer? (v : Json) (pointer : String) : Option Json := v.pointerChars? pointer.toList

end Json

end JsonSchema
