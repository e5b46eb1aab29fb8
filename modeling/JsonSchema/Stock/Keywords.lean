import JsonSchema.Options

/-!
# Stock custom keywords

Named keyword rules that can be registered under any keyword.

* `divisibleBy`, `equalsTitle`, `hasKey`, `deny`: rules that make checks;
* `reject`: a rule that refuses every schema.
-/

namespace JsonSchema.Stock

/-- Natural numbers must be divisible by the keyword's value, a positive integer. -/
def divisibleBy : KeywordRule := fun _ value place =>
  match value with
  | .number (.integer n) =>
    if 0 < n then
      .ok fun v => match v with
        | .number (.integer m) =>
          if 0 ≤ m ∧ m % n ≠ 0 then some ("is not divisible by " ++ String.ofList (intText n))
          else none
        | _ => none
    else .error ⟨place, .custom "divisibleBy must be a positive integer"⟩
  | _ => .error ⟨place, .custom "divisibleBy must be a positive integer"⟩

def equalsTitle : KeywordRule := fun parent _ _ =>
  match parent.lookup "title" with
  | some (.string title) =>
    .ok fun v => if v.string? = some title then none else some ("must equal " ++ title)
  | _ => .ok fun _ => none

def hasKey : KeywordRule := fun _ value place =>
  match value with
  | .string key => .ok fun v => if (v.get? key).isSome then none else some ("lacks " ++ key)
  | _ => .error ⟨place, .custom "hasKey must be a string"⟩

/-- Every value fails, with the keyword's value as the text if it is one. -/
def deny : KeywordRule := fun _ value _ => .ok fun _ => some (value.string?.getD "denied")

def reject : KeywordRule := fun _ _ _ => .error ⟨[], .custom "rejected"⟩

def keyword? (name : String) : Option KeywordRule :=
  match name with
  | "divisibleBy" => some divisibleBy
  | "equalsTitle" => some equalsTitle
  | "hasKey" => some hasKey
  | "deny" => some deny
  | "reject" => some reject
  | _ => none

end JsonSchema.Stock
