import JsonSchema.Json.Basic
import JsonSchema.Json.Quoted
import JsonSchema.Number.Text

/-!
# Writing JSON

`Json.render` writes a value on one line, without blanks and with members in their order.
-/

namespace JsonSchema

namespace Json

mutual
def render : Json → String
  | null => "null"
  | bool true => "true"
  | bool false => "false"
  | number n => String.ofList n.text
  | string s => quote s
  | array xs => "[" ++ ",".intercalate (renderItems xs) ++ "]"
  | object ms => "\x7b" ++ ",".intercalate (renderMembers ms) ++ "\x7d"

def renderItems : List Json → List String
  | [] => []
  | x :: xs => render x :: renderItems xs

def renderMembers : Members → List String
  | [] => []
  | (name, v) :: ms => (quote name ++ ":" ++ render v) :: renderMembers ms
end

end Json

end JsonSchema
