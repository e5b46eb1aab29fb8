import JsonSchema.Json.Basic

/-!
# Deciding whether values are identical

Identical values agree in all parts, the order of members and the form of numbers included. The
test goes down both values at once, so it can be run on any two of them.

* `Json.identical_iff`: the test decides equality.
-/

namespace JsonSchema

namespace Json

mutual
def identical : Json → Json → Bool
  | null, null => true
  | bool a, bool b => a == b
  | number a, number b => decide (a = b)
  | string a, string b => decide (a = b)
  | array xs, array ys => identicalItems xs ys
  | object ms, object ns => identicalMembers ms ns
  | _, _ => false

def identicalItems : List Json → List Json → Bool
  | [], [] => true
  | x :: xs, y :: ys => identical x y && identicalItems xs ys
  | _, _ => false

def identicalMembers : Members → Members → Bool
  | [], [] => true
  | (a, v) :: ms, (b, w) :: ns => decide (a = b) && identical v w && identicalMembers ms ns
  | _, _ => false
end

mutual
theorem identical_iff : (v w : Json) → (identical v w = true ↔ v = w)
  | null, w => by cases w <;> simp [identical]
  | bool _, w => by cases w <;> simp [identical]
  | number _, w => by cases w <;> simp [identical]
  | string _, w => by cases w <;> simp [identical]
  | array xs, w => by
    cases w with
    | array ys => simpa [identical] using identicalItems_iff xs ys
    | _ => simp [identical]
  | object ms, w => by
    cases w with
    | object ns => simpa [identical] using identicalMembers_iff ms ns
    | _ => simp [identical]

theorem identicalItems_iff : (xs ys : List Json) → (identicalItems xs ys = true ↔ xs = ys)
  | [], ys => by cases ys <;> simp [identicalItems]
  | x :: xs, ys => by
    cases ys with
    | nil => simp [identicalItems]
    | cons y ys => simp [identicalItems, identical_iff x y, identicalItems_iff xs ys]

theorem identicalMembers_iff : (ms ns : Members) → (identicalMembers ms ns = true ↔ ms = ns)
  | [], ns => by cases ns <;> simp [identicalMembers]
  | (a, v) :: ms, ns => by
    cases ns with
    | nil => simp [identicalMembers]
    | cons n ns =>
      obtain ⟨b, w⟩ := n
      simp [identicalMembers, identical_iff v w, identicalMembers_iff ms ns]
end

instance : DecidableEq Json := fun v w => decidable_of_iff _ (identical_iff v w)

end Json

end JsonSchema
