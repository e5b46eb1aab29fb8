import JsonSchema.Json.Basic

/-!
# Types of values

The seven type names of schemas. A number is an `integer` when its exact value is one.

* `TypeName.holds`: whether a value has a type;
* `TypeSet`: a set of types, listed in the order of their names;
* `TypeSet.holds_iff`: a value has one of the types of a set.
-/

namespace JsonSchema

inductive TypeName where
  | array
  | boolean
  | integer
  | null
  | number
  | object
  | string
  deriving DecidableEq, Repr

namespace TypeName

def all : List TypeName := [array, boolean, integer, null, number, object, string]

def name : TypeName → String
  | array => "array"
  | boolean => "boolean"
  | integer => "integer"
  | null => "null"
  | number => "number"
  | object => "object"
  | string => "string"

def ofName? (s : String) : Option TypeName := all.find? fun t => t.name == s

def holds : TypeName → Json → Bool
  | array, .array _ => true
  | boolean, .bool _ => true
  | integer, .number n => n.isInteger
  | null, .null => true
  | number, .number _ => true
  | object, .object _ => true
  | string, .string _ => true
  | _, _ => false

theorem mem_all (t : TypeName) : t ∈ all := by cases t <;> decide

theorem ofName?_name (t : TypeName) : ofName? t.name = some t := by cases t <;> decide

end TypeName

/-- A set of types. -/
structure TypeSet where
  has : TypeName → Bool

namespace TypeSet

def empty : TypeSet := ⟨fun _ => false⟩

def insert (s : TypeSet) (t : TypeName) : TypeSet := ⟨fun u => u == t || s.has u⟩

def ofList (ts : List TypeName) : TypeSet := ts.foldl insert empty

def toList (s : TypeSet) : List TypeName := TypeName.all.filter s.has

def isEmpty (s : TypeSet) : Bool := s.toList.isEmpty

def holds (s : TypeSet) (v : Json) : Bool := s.toList.any fun t => t.holds v

theorem holds_iff (s : TypeSet) (v : Json) :
    s.holds v = true ↔ ∃ t, s.has t = true ∧ t.holds v = true := by
  simp [holds, toList, TypeName.mem_all]

end TypeSet

end JsonSchema
