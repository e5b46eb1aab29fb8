import JsonSchema.Number.Basic

/-!
# JSON values

Objects keep their members in document order, with distinct names. Two values are the same when
they agree up to the order of members and up to the form of numbers.

* `Json.lookup_lt`, `Json.mem_lt`: parts of a value are smaller, for recursion on values;
* `allDifferent`: no two items of a list are the same value.
-/

namespace JsonSchema

inductive Json where
  | null
  | bool (b : Bool)
  | number (n : Number)
  | string (s : String)
  | array (items : List Json)
  | object (members : List (String × Json))
  deriving Inhabited

/-- Members of an object, in document order. -/
abbrev Members := List (String × Json)

/-! ## Parts of a value are smaller -/

theorem lookup_lt {κ α : Type} [BEq κ] [SizeOf κ] [SizeOf α] {ms : List (κ × α)} {name : κ} {v : α}
    (h : ms.lookup name = some v) : sizeOf v < sizeOf ms := by
  induction ms with
  | nil => simp at h
  | cons m ms ih =>
    obtain ⟨key, w⟩ := m
    rw [List.lookup_cons] at h
    split at h
    · simp only [Option.some.injEq] at h
      subst h
      simp only [List.cons.sizeOf_spec, Prod.mk.sizeOf_spec]
      omega
    · have := ih h
      simp only [List.cons.sizeOf_spec]
      omega

theorem mem_lt {κ α : Type} [SizeOf κ] [SizeOf α] {ms : List (κ × α)} {m : κ × α} (h : m ∈ ms) :
    sizeOf m.2 < sizeOf ms := by
  have h1 := List.sizeOf_lt_of_mem h
  have h2 : sizeOf m = 1 + sizeOf m.1 + sizeOf m.2 := by cases m; rfl
  omega

theorem mem_of_lookup {κ α : Type} [BEq κ] [LawfulBEq κ] {ms : List (κ × α)} {name : κ} {v : α}
    (h : ms.lookup name = some v) : (name, v) ∈ ms := by
  obtain ⟨front, back, rfl, -⟩ := List.lookup_eq_some_iff.mp h
  exact List.mem_append_right front List.mem_cons_self

/-! ## Members -/

namespace Members

def has (ms : Members) (name : String) : Bool := (ms.lookup name).isSome

/-- Give the member called `name` a new value, at its old position. -/
def replace (ms : Members) (name : String) (v : Json) : Members :=
  ms.map fun m => if m.1 = name then (m.1, v) else m

/-- Replace the member called `name`, or add it at the end. -/
def insert (ms : Members) (name : String) (v : Json) : Members :=
  bif ms.has name then ms.replace name v else ms ++ [(name, v)]

theorem map_fst_replace (ms : Members) (name : String) (v : Json) :
    (ms.replace name v).map Prod.fst = ms.map Prod.fst := by
  simp only [replace, List.map_map]
  congr 1
  funext m
  by_cases h : m.1 = name <;> simp [h]

end Members

namespace Json

/-! ## Views -/

def string? : Json → Option String
  | string s => some s
  | _ => none

/-- The member called `name` of an object. -/
def get? (v : Json) (name : String) : Option Json :=
  match v with
  | object ms => ms.lookup name
  | _ => none

/-- A schema is an object or a boolean. -/
def isSchema : Json → Bool
  | object _ => true
  | bool _ => true
  | _ => false

/-! ## Sameness -/

mutual
/-- Equality up to the order of members and the form of numbers. -/
def same : Json → Json → Bool
  | null, null => true
  | bool a, bool b => a == b
  | number a, number b => a.same b
  | string a, string b => a == b
  | array xs, array ys => sameItems xs ys
  | object ms, object ns => ms.length == ns.length && sameMembers ms ns
  | _, _ => false

def sameItems : List Json → List Json → Bool
  | [], [] => true
  | x :: xs, y :: ys => same x y && sameItems xs ys
  | _, _ => false

/-- Whether every member of the first list has a same one in the second. -/
def sameMembers : Members → Members → Bool
  | [], _ => true
  | (name, v) :: ms, ns =>
    (match ns.lookup name with
      | some w => same v w
      | none => false) && sameMembers ms ns
end

/-- No two positions of the list hold the same value. -/
def allDifferent : List Json → Bool
  | [] => true
  | x :: xs => xs.all (fun y => !same x y) && allDifferent xs

theorem allDifferent_iff (xs : List Json) :
    allDifferent xs = true ↔ xs.Pairwise (fun x y => same x y = false) := by
  induction xs with
  | nil => simp [allDifferent]
  | cons x xs ih => simp [allDifferent, ih]

/-! ## Size -/

mutual
/-- The number of values in a value, itself included. -/
def size : Json → Nat
  | array xs => sizeItems xs + 1
  | object ms => sizeMembers ms + 1
  | _ => 1

def sizeItems : List Json → Nat
  | [] => 0
  | x :: xs => size x + sizeItems xs

def sizeMembers : Members → Nat
  | [] => 0
  | (_, v) :: ms => size v + sizeMembers ms
end

end Json

end JsonSchema
