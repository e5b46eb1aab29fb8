import JsonSchema.Pointer
import JsonSchema.Text.Digits

/-!
# References

A reference denotes, in this order: the first value of the root document with that identifier, the
value of the root that its pointer leads to, an external document of that key, or what the pointer
after the number sign leads to in it.

* `Json.findId?`: the first value with an identifier, in document order;
* `percentDecode?`: the text behind percent escapes, if its bytes are UTF-8;
* `resolve?`: the value that a reference denotes.
-/

namespace JsonSchema

/-- External documents by key. -/
abbrev Documents := List (String × Json)

/-! ## Identifiers -/

namespace Json

def hasId (ms : Members) (id : String) : Bool :=
  (ms.lookup "id").bind Json.string? == some id || (ms.lookup "$id").bind Json.string? == some id

mutual
/-- The first value with an identifier: a value before its parts, parts in document order. -/
def findId? (id : String) : Json → Option Json
  | object ms => bif hasId ms id then some (object ms) else findIdMembers? id ms
  | array xs => findIdItems? id xs
  | _ => none

def findIdItems? (id : String) : List Json → Option Json
  | [] => none
  | x :: xs => (findId? id x).or (findIdItems? id xs)

def findIdMembers? (id : String) : Members → Option Json
  | [] => none
  | (_, v) :: ms => (findId? id v).or (findIdMembers? id ms)
end

end Json

/-! ## Percent escapes -/

/-- The bytes of a text, those written as `%` and two hex digits decoded. -/
def percentBytes : List Char → List UInt8
  | '%' :: a :: b :: cs =>
    match hexValue? a, hexValue? b with
    | some x, some y => UInt8.ofNat (16 * x + y) :: percentBytes cs
    | _, _ => (String.singleton '%').toUTF8.toList ++ percentBytes (a :: b :: cs)
  | c :: cs => (String.singleton c).toUTF8.toList ++ percentBytes cs
  | [] => []

/-- The decoded text, if its bytes are UTF-8. -/
def percentDecode? (cs : List Char) : Option (List Char) :=
  (String.fromUTF8? ⟨(percentBytes cs).toArray⟩).map String.toList

/-! ## Resolution -/

/-- The key and the fragment of a text, cut at the first number sign. -/
def cutFragment (cs : List Char) : List Char × Option (List Char) :=
  match cs.dropWhile (· != '#') with
  | [] => (cs, none)
  | _ :: fragment => (cs.takeWhile (· != '#'), some fragment)

def resolveExternal? (documents : Documents) (cs : List Char) : Option Json :=
  match cutFragment cs with
  | (key, none) => documents.lookup (String.ofList key)
  | (key, some fragment) => do
    let document ← documents.lookup (String.ofList key)
    bif Pointer.isPointer fragment then document.pointerChars? fragment else return document

/-- The value that a reference denotes. -/
def resolve? (root : Json) (documents : Documents) (reference : String) : Option Json :=
  match root.findId? reference with
  | some v => some v
  | none =>
    let text := Pointer.dropSign reference.toList
    let decoded := (percentDecode? text).getD text
    bif Pointer.isPointer decoded then root.pointerChars? decoded
    else resolveExternal? documents (Pointer.dropSlash text)

end JsonSchema
