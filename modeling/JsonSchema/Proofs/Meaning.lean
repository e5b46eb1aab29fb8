import JsonSchema.Node.Shape
import JsonSchema.Proofs.ExactValue
import Mathlib.Data.Rat.Floor

/-!
# What schemas mean

Which values a schema document accepts, by recursion on the document alone. Nothing here speaks of
nodes, checks or runs. Patterns, named formats and the equality of values are those of the library.
When a whole number divides a number is a parameter, since doubles are divided with a rounding that
exact values do without.

* `Json.HasType`: the types of a value, by name;
* `Division.exact`, `Division.rounded`: when a whole number divides a number;
* `Number.IsMultiple`: the multiples of a divisor, whole or not;
* `Keyword.Admits`: the keywords that look at one value and hold no schemas;
* `AllowsAbsent`: the schemas that let a value be absent;
* `Accepts`: the meaning of a schema;
* `accepts_object_iff`: the meaning of a schema object, keyword by keyword.
-/

namespace JsonSchema

/-! ## Types -/

/-- A value has the type of the given name. A number is an integer if its exact value is one. -/
def Json.HasType (v : Json) (name : String) : Prop :=
  match v with
  | .null => name = "null"
  | .bool _ => name = "boolean"
  | .number n => name = "number" ∨ name = "integer" ∧ ∃ k : Int, n.value = k
  | .string _ => name = "string"
  | .array _ => name = "array"
  | .object _ => name = "object"

/-- What the value of `type` says: one type, or a list of types. The name `any` stands for all of
them, and so does an empty list. -/
def Json.AdmittedBy (v : Json) : Json → Prop
  | .string name => name = "any" ∨ v.HasType name
  | .array names =>
    names = [] ∨ .string "any" ∈ names ∨ ∃ name, .string name ∈ names ∧ v.HasType name
  | _ => False

/-- The type of a schema object. A list of schemas for the positions asks for an array, whatever
`type` says. -/
def AdmitsType (ms : Members) (v : Json) : Prop :=
  match ms.lookup "items" with
  | some (.array _) => ∃ xs, v = .array xs
  | _ => ∀ t, ms.lookup "type" = some t → v.AdmittedBy t

def AllowsNull (ms : Members) : Prop :=
  ∃ names, ms.lookup "type" = some (.array names) ∧ .string "null" ∈ names

/-! ## Formats -/

/-- The test of a format that is no schema. A registered pattern is for the whole string. -/
def Options.formatTest? (o : Options) (name : String) : Option (String → Bool) :=
  match o.formats.lookup name with
  | some (.predicate test) => some test
  | some (.pattern text) => (Pattern.parse? (wholeText text)).map Pattern.accepts
  | _ => Format.builtin? name

def MatchesFormat (o : Options) (ms : Members) (v : Json) : Prop :=
  ∀ name test s, ms.lookup "format" = some (.string name) → o.formatTest? name = some test →
    v = .string s → test s = true

/-! ## Multiples -/

/-- When a whole number divides a number. -/
abbrev Division := Nat → Number → Prop

namespace Division

/-- The exact value is a multiple. -/
def exact : Division := fun n a => ∃ k : Int, a.value = k * n

/-- Integers are divided exactly, and whole doubles by the double nearest to the divisor. -/
def rounded : Division
  | n, .integer m => exact n (.integer m)
  | n, .double x => (∃ j : Int, (Number.double x).value = j) ∧
    ∃ k : Int, (Number.double x).value = k * (Number.double (.ofInt n)).value

end Division

/-- A double with its decimal point moved to the right, the product rounded as doubles are. -/
def Double.shifted (x : Double) (digits : Nat) : Extended :=
  (Extended.powerOfTen digits).mul (.finite x)

/-- The integer nearest to the size, a half going away from zero. -/
def Double.nearest (x : Double) : Int := round |(Number.double x).value|

/-- Rounded to integers, the first number leaves no remainder. Less than an infinity is itself the
remainder. -/
def Extended.LeavesNothing : Extended → Extended → Prop
  | finite x, finite y => y.nearest ≠ 0 ∧ y.nearest ∣ x.nearest
  | finite x, infinite _ => x.nearest = 0
  | _, _ => False

/-- A double is a multiple of another one on the decimal grid of the divisor: it has no more digits
after its point, unless it is whole, and moved by the digits of the divisor it leaves nothing. -/
def Double.IsOnGrid (x divisor : Double) : Prop :=
  ((∃ k : Int, (Number.double x).value = k) ∨ x.fractionDigits ≤ divisor.fractionDigits) ∧
    (x.shifted divisor.fractionDigits).LeavesNothing (divisor.shifted divisor.fractionDigits)

namespace Number

def IsWhole (divisor : Number) (n : Nat) : Prop :=
  divisor = .integer n ∨ n < UInt64.size ∧ divisor.value = n

/-- What `multipleOf` asks of a number. -/
def IsMultiple (D : Division) (divisor a : Number) : Prop :=
  (∀ n, divisor.IsWhole n → D n a) ∧
    ∀ x, divisor = .double x → (∀ n, ¬divisor.IsWhole n) → a.toDouble.IsOnGrid x

end Number

/-! ## Keywords without schemas -/

/-- Two values are the same JSON value: the order of members and the form of numbers aside. -/
abbrev Json.Same (v w : Json) : Prop := v.same w = true

/-- A schema object `ms` whose keyword `k` has the first value admits the second one. Keywords bind
values of one type, and let all others pass. -/
def Keyword.Admits (D : Division) (k : Keyword) (ms : Members) (x v : Json) : Prop :=
  match k, x, v with
  | .uniqueItems, .bool true, .array xs => xs.Pairwise fun a b => ¬a.Same b
  | .enum, .array options, v => options ≠ [] → ∃ y ∈ options, v.Same y
  | .pattern, .string text, .string s => ∀ p, Pattern.parse? text = some p → p.accepts s = true
  | .multipleOf, .number divisor, .number a => divisor.IsMultiple D a
  | .maxProperties, .number n, .object members => ∀ limit, n.size? = some limit →
    members.length ≤ limit
  | .minProperties, .number n, .object members => ∀ limit, n.size? = some limit →
    limit ≤ members.length
  | .maxItems, .number n, .array xs => ∀ limit, n.size? = some limit → xs.length ≤ limit
  | .minItems, .number n, .array xs => ∀ limit, n.size? = some limit → limit ≤ xs.length
  | .maxLength, .number n, .string s => ∀ limit, n.size? = some limit → s.length ≤ limit
  | .minLength, .number n, .string s => ∀ limit, n.size? = some limit → limit ≤ s.length
  | .minimum, .number limit, .number a =>
    if ms.lookup "exclusiveMinimum" = some (.bool true) then limit.value < a.value
    else limit.value ≤ a.value
  | .maximum, .number limit, .number a =>
    if ms.lookup "exclusiveMaximum" = some (.bool true) then a.value < limit.value
    else a.value ≤ limit.value
  | _, _, _ => True

/-! ## Members -/

/-- A schema lets a value be absent, unless it requires the value and has no default for it. -/
def AllowsAbsent : Json → Prop
  | .object ms => ms.lookup "required" = some (.bool true) → (ms.lookup "default").isSome
  | _ => True

def IsDeclared (ms : Members) (name : String) : Prop :=
  (∃ ps, ms.lookup "properties" = some (.object ps) ∧ name ∈ ps.map Prod.fst) ∨
    ∃ ps, ms.lookup "patternProperties" = some (.object ps) ∧
      ∃ e ∈ ps, ∃ p, Pattern.parse? e.1 = some p ∧ p.accepts name = true

def HasAll (v : Json) (names : List Json) : Prop :=
  ∀ name, .string name ∈ names → (v.get? name).isSome

def HasRequired (ms : Members) (v : Json) : Prop :=
  ∀ names members, ms.lookup "required" = some (.array names) → v = .object members →
    HasAll v names

/-- What a dependency demands of an object: a name, names, or that a schema accepts it. -/
def Demands (dependency v : Json) (accepted : Prop) : Prop :=
  match dependency with
  | .string name => HasAll v [.string name]
  | .array names => HasAll v names
  | _ => accepted

/-- A part of a value is accepted, or it may be absent. -/
def PartHolds (part : Option Json) (accepts : Json → Prop) (absent : Prop) : Prop :=
  match part with
  | some w => accepts w
  | none => absent

/-! ## Schemas -/

theorem sizeOf_lt_of_keyword {ms : Members} {name : String} {x : Json}
    (h : ms.lookup name = some x) : sizeOf x < sizeOf (Json.object ms) := by
  have := lookup_lt h
  simp only [Json.object.sizeOf_spec]
  omega

theorem sizeOf_lt_of_item {ms : Members} {name : String} {xs : List Json} {x : Json}
    (h : ms.lookup name = some (.array xs)) (hx : x ∈ xs) : sizeOf x < sizeOf (Json.object ms) := by
  have h1 := sizeOf_lt_of_keyword h
  have h2 := List.sizeOf_lt_of_mem hx
  simp only [Json.array.sizeOf_spec] at h1
  omega

theorem sizeOf_lt_of_index {ms : Members} {name : String} {ss : List Json}
    (h : ms.lookup name = some (.array ss)) (i : Fin ss.length) :
    sizeOf ss[i] < sizeOf (Json.object ms) :=
  sizeOf_lt_of_item h (List.getElem_mem _)

theorem sizeOf_lt_of_entry {ms entries : Members} {name : String} {e : String × Json}
    (h : ms.lookup name = some (.object entries)) (he : e ∈ entries) :
    sizeOf e.2 < sizeOf (Json.object ms) := by
  have h1 := sizeOf_lt_of_keyword h
  have h2 := mem_lt he
  simp only [Json.object.sizeOf_spec] at h1 ⊢
  omega

/-- **What a schema means.** A boolean schema, `false` too, accepts every value. An object schema
accepts the values of which all its keywords hold. References are left out. -/
def Accepts (D : Division) (o : Options) (schema v : Json) : Prop :=
  match schema with
  | .object ms =>
    AdmitsType ms v ∧ HasRequired ms v ∧ MatchesFormat o ms v ∧
    (∀ k x, ms.lookup (Keyword.name k) = some x → k.Admits D ms x v) ∧
    (∀ entries, ms.lookup "dependencies" = some (.object entries) →
      ∀ e ∈ entries, (v.get? e.1).isSome → Demands e.2 v (Accepts D o e.2 v)) ∧
    -- `false` forbids the other members, although it accepts every value as a schema
    (∀ x, ms.lookup "additionalProperties" = some x → ∀ members, v = .object members →
      ∀ m ∈ members, ¬IsDeclared ms m.1 → x ≠ .bool false ∧ Accepts D o x m.2) ∧
    (∀ x, ms.lookup "not" = some x → ¬Accepts D o x v) ∧
    (∀ x, ms.lookup "items" = some x → (∀ ss, x ≠ .array ss) → ∀ xs, v = .array xs →
      ∀ y ∈ xs, Accepts D o x y) ∧
    (∀ entries, ms.lookup "patternProperties" = some (.object entries) →
      ∀ members, v = .object members → ∀ e ∈ entries, ∀ p, Pattern.parse? e.1 = some p →
        ∀ m ∈ members, p.accepts m.1 = true → Accepts D o e.2 m.2) ∧
    (∀ ss, ms.lookup "allOf" = some (.array ss) → ∀ s ∈ ss, Accepts D o s v) ∧
    (∀ ss, ms.lookup "anyOf" = some (.array ss) → ss ≠ [] → ∃ s, ∃ _ : s ∈ ss, Accepts D o s v) ∧
    (∀ ss, ms.lookup "oneOf" = some (.array ss) → ss ≠ [] →
      ∃ i : Fin ss.length, Accepts D o ss[i] v ∧ ∀ j : Fin ss.length, Accepts D o ss[j] v → j = i) ∧
    (∀ ss, ms.lookup "items" = some (.array ss) → ∀ xs, v = .array xs → ∀ i : Fin ss.length,
      PartHolds xs[i]? (fun x => Accepts D o ss[i] x) (AllowsAbsent ss[i])) ∧
    (∀ ss, ms.lookup "items" = some (.array ss) → ∀ x, ms.lookup "additionalItems" = some x →
      ∀ xs, v = .array xs → ∀ y ∈ xs.drop ss.length, x ≠ .bool false ∧ Accepts D o x y) ∧
    -- a value that is no object lacks all members, unless it is a null that its types allow
    (∀ entries, ms.lookup "properties" = some (.object entries) →
      (∀ ss, ms.lookup "items" ≠ some (.array ss)) → (v = .null → ¬AllowsNull ms) →
        ∀ e ∈ entries, PartHolds (v.get? e.1) (fun w => Accepts D o e.2 w) (AllowsAbsent e.2))
  | .bool _ => True
  | _ => False
termination_by sizeOf schema
decreasing_by
  all_goals first
    | exact sizeOf_lt_of_keyword ‹_›
    | exact sizeOf_lt_of_entry ‹_› ‹_›
    | exact sizeOf_lt_of_item ‹_› ‹_›
    | exact sizeOf_lt_of_index ‹_› _

/-! ## Clauses -/

def Keyword.Clause (D : Division) (o : Options) (k : Keyword) (ms : Members) (x v : Json) : Prop :=
  match k with
  | .dependencies => ∀ entries, x = .object entries → ∀ e ∈ entries,
    (v.get? e.1).isSome → Demands e.2 v (Accepts D o e.2 v)
  | .additionalProperties => ∀ members, v = .object members →
    ∀ m ∈ members, ¬IsDeclared ms m.1 → x ≠ .bool false ∧ Accepts D o x m.2
  | .not => ¬Accepts D o x v
  | .items => (∀ ss, x ≠ .array ss) → ∀ xs, v = .array xs → ∀ y ∈ xs, Accepts D o x y
  | .patternProperties => ∀ entries, x = .object entries → ∀ members, v = .object members →
    ∀ e ∈ entries, ∀ p, Pattern.parse? e.1 = some p → ∀ m ∈ members,
      p.accepts m.1 = true → Accepts D o e.2 m.2
  | .allOf => ∀ ss, x = .array ss → ∀ s ∈ ss, Accepts D o s v
  | .anyOf => ∀ ss, x = .array ss → ss ≠ [] → ∃ s, ∃ _ : s ∈ ss, Accepts D o s v
  | .oneOf => ∀ ss, x = .array ss → ss ≠ [] → ∃ i : Fin ss.length,
    Accepts D o ss[i] v ∧ ∀ j : Fin ss.length, Accepts D o ss[j] v → j = i
  | k => k.Admits D ms x v

def TupleClause (D : Division) (o : Options) (ms : Members) (v : Json) : Prop :=
  ∀ ss, ms.lookup "items" = some (.array ss) → ∀ xs, v = .array xs → ∀ i : Fin ss.length,
    PartHolds xs[i]? (fun x => Accepts D o ss[i] x) (AllowsAbsent ss[i])

def AdditionalItemsClause (D : Division) (o : Options) (ms : Members) (v : Json) : Prop :=
  ∀ ss, ms.lookup "items" = some (.array ss) → ∀ x, ms.lookup "additionalItems" = some x →
    ∀ xs, v = .array xs → ∀ y ∈ xs.drop ss.length, x ≠ .bool false ∧ Accepts D o x y

def PropertiesClause (D : Division) (o : Options) (ms : Members) (v : Json) : Prop :=
  ∀ entries, ms.lookup "properties" = some (.object entries) →
    (∀ ss, ms.lookup "items" ≠ some (.array ss)) → (v = .null → ¬AllowsNull ms) →
      ∀ e ∈ entries, PartHolds (v.get? e.1) (fun w => Accepts D o e.2 w) (AllowsAbsent e.2)

theorem accepts_bool (D : Division) (o : Options) (b : Bool) (v : Json) :
    Accepts D o (.bool b) v := by
  rw [Accepts]
  trivial

theorem accepts_object_iff (D : Division) (o : Options) (ms : Members) (v : Json) :
    Accepts D o (.object ms) v ↔
      AdmitsType ms v ∧ HasRequired ms v ∧ MatchesFormat o ms v ∧
        (∀ k x, ms.lookup (Keyword.name k) = some x → k.Clause D o ms x v) ∧
        TupleClause D o ms v ∧ AdditionalItemsClause D o ms v ∧ PropertiesClause D o ms v := by
  rw [Accepts]
  constructor
  · rintro ⟨ht, hr, hf, hk, hdeps, hadd, hnot, hitems, hpat, hall, hany, hone, htuple, hpast,
      hprops⟩
    refine ⟨ht, hr, hf, ?_, htuple, hpast, hprops⟩
    intro k x hx
    cases k with
    | dependencies => exact fun entries he => hdeps entries (he ▸ hx)
    | additionalProperties => exact hadd x hx
    | not => exact hnot x hx
    | items => exact hitems x hx
    | patternProperties => exact fun entries he => hpat entries (he ▸ hx)
    | allOf => exact fun ss hs => hall ss (hs ▸ hx)
    | anyOf => exact fun ss hs => hany ss (hs ▸ hx)
    | oneOf => exact fun ss hs => hone ss (hs ▸ hx)
    | _ => exact hk _ x hx
  · rintro ⟨ht, hr, hf, hk, htuple, hpast, hprops⟩
    refine ⟨ht, hr, hf, ?_, ?_, ?_, ?_, ?_, ?_, ?_, ?_, ?_, htuple, hpast, hprops⟩
    · intro k x hx
      cases k with
      | dependencies | additionalProperties | not | items | patternProperties | allOf | anyOf
      | oneOf => trivial
      | _ => exact hk _ x hx
    · exact fun entries he => hk .dependencies _ he entries rfl
    · exact fun x hx => hk .additionalProperties x hx
    · exact fun x hx => hk .not x hx
    · exact fun x hx => hk .items x hx
    · exact fun entries he => hk .patternProperties _ he entries rfl
    · exact fun ss hs => hk .allOf _ hs ss rfl
    · exact fun ss hs => hk .anyOf _ hs ss rfl
    · exact fun ss hs => hk .oneOf _ hs ss rfl

end JsonSchema
