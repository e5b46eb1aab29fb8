/-!
# Stock predicates for formats

Named tests on strings that can be registered as formats.
-/

namespace JsonSchema.Stock

def predicate? (name : String) : Option (String → Bool) :=
  match name with
  | "even-length" => some fun s => s.utf8ByteSize % 2 == 0
  | "lowercase" => some fun s => s.toList.all fun c => 'a' ≤ c && c ≤ 'z'
  | "is-me" => some fun s => s == "me"
  | "always" => some fun _ => true
  | "never" => some fun _ => false
  | _ => none

end JsonSchema.Stock
