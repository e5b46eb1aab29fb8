import JsonSchema.Proofs.Buildable
import JsonSchema.Proofs.FormFree
import JsonSchema.Proofs.Simulation

/-!
# Equal values

Two values are equal if they differ only in the order of members and in the form of numbers. Rules
that do not look at the form find faults in equal values alike. So a validator that has only such
rules accepts equal values alike: the runs on them go side by side, visiting the members in
different orders.

* `Rule.fault?_congr`: rules that do not look at the form find faults in equal values alike;
* `Check.Mirrors.refl`: a check looks for the same things in equal values;
* `Validator.isValid_eq_of_same`: equal values are valid or not alike.
-/

namespace JsonSchema

/-! ## Equal values -/

namespace Json.Corresponds

variable {v w : Json}

theorem of_same (hv : v.distinct) (h : v.Same w) : v.Corresponds Number.Same w :=
  (same_iff_corresponds hv).1 h

theorem shape (h : v.Corresponds Number.Same w) : v.SameShape (Corresponds Number.Same) w :=
  h.sameShape fun _ _ => id

end Json.Corresponds

theorem Json.allDifferent_congr {xs ys : List Json}
    (h : List.Forall₂ (Corresponds Number.Same) xs ys) : allDifferent xs = allDifferent ys := by
  rw [Bool.eq_iff_iff, allDifferent_iff, allDifferent_iff]
  exact pairwise_iff_of_forall₂ h fun x y x' y' hxy hxy' => by rw [hxy.same_eq hxy']

theorem Rule.below_congr {a b a' b' : Number} (bound : Bool) (ha : a.Same a') (hb : b.Same b') :
    below a b bound = below a' b' bound := by
  have ha := (Number.same_iff _ _).1 ha
  have hb := (Number.same_iff _ _).1 hb
  rw [below, below, Number.le, Number.le, Number.lt, Number.lt, ha, hb]

/-- **Rules that do not look at the form** find faults in equal values alike. -/
theorem Rule.fault?_congr {r : Rule} (hr : r.looksAtForm = false) {v w : Json}
    (h : v.Corresponds Number.Same w) : r.fault? v = none ↔ r.fault? w = none := by
  have hshape := h.shape
  cases r with
  | multipleOf | custom => cases hr
  | enum options =>
    have hany : options.any v.same = options.any w.same := by
      rw [Bool.eq_iff_iff, List.any_eq_true, List.any_eq_true]
      refine exists_congr fun x => and_congr_right fun _ => ?_
      rw [Json.same_iff_corresponds h.distinct_left, Json.same_iff_corresponds h.distinct_right]
      exact ⟨h.equal_symm.equal_trans, h.equal_trans⟩
    rw [fault?, fault?, hany]
  | uniqueItems =>
    cases hshape with
    | array hitems => rw [fault?, fault?, Json.allDifferent_congr hitems]
    | _ => rfl
  | noItemsPast limit | maxItems limit | minItems limit =>
    cases hshape with
    | array hitems => rw [fault?, fault?, hitems.length_eq]
    | _ => rfl
  | maxProperties limit | minProperties limit =>
    cases hshape with
    | object hlen _ _ => rw [fault?, fault?, hlen]
    | _ => rfl
  | minimum limit exclusive | maximum limit exclusive =>
    have hself : limit.Same limit := limit.same_of_eq limit rfl
    cases hshape with
    | number hab =>
      simp only [fault?, below_congr exclusive hab hself, below_congr exclusive hself hab]
    | _ => rfl
  | _ => cases hshape <;> rfl

theorem TypeName.holds_congr (t : TypeName) {v w : Json} (h : v.Corresponds Number.Same w) :
    t.holds v = t.holds w := by
  cases t with
  | integer =>
    cases h with
    | number hab =>
      rw [holds, holds, Bool.eq_iff_iff, Number.isInteger_iff, Number.isInteger_iff,
        (Number.same_iff _ _).1 hab]
    | _ => rfl
  | _ => cases h <;> rfl

namespace Heading

variable (h : Heading) {v w : Json} (hvw : v.Corresponds Number.Same w)
include hvw

theorem acceptsType_congr : h.acceptsType v = h.acceptsType w := by
  rw [acceptsType, acceptsType]
  cases h.types with
  | none => rfl
  | some ts => exact congrArg (List.any ts.toList) (funext fun t => t.holds_congr hvw)

theorem missing_congr : h.missing v = h.missing w := by
  cases hvw.shape with
  | object _ _ hlookup =>
    exact congrArg (h.requiredNames.filter ·)
      (funext fun name => congrArg (!·) (Members.has_eq (hlookup name)))
  | _ => rfl

end Heading

/-! ## Runs -/

/-- A check looks for the same things in values that its rule finds faults in alike. -/
theorem Check.Mirrors.refl {V : Json → Json → Prop} {N : Node → Node → Prop} {c : Check}
    (hrule : ∀ r place, c = .rule r place → ∀ v w, V v w → (r.fault? v = none ↔ r.fault? w = none))
    (hnodes : ∀ n ∈ c.nodes, N n n) : c.Mirrors V N c := by
  cases c with
  | rule r place => exact .rule (hrule r place rfl)
  | dependencies entries =>
    refine .dependencies (.refl fun e he => ⟨rfl, ?_⟩)
    obtain ⟨name, d⟩ := e
    cases d with
    | names names place => exact .names names
    | schema n =>
      exact .schema (hnodes n (List.mem_append_left _ (List.mem_filterMap.2 ⟨_, he, rfl⟩)))
  | closed declared place => exact .closed fun _ => rfl
  | additional declared n =>
    exact .additional (fun _ => rfl) (hnodes n (by simp [nodes, nodesBelow]))
  | reference text place => exact .reference text
  | schemaFormat name => exact .schemaFormat name
  | negation n place => exact .negation (hnodes n (by simp [nodes, nodesHere]))
  | items n => exact .items (hnodes n (by simp [nodes, nodesBelow]))
  | patternProperties entries =>
    refine .patternProperties (.refl fun e he => ⟨rfl, hnodes e.2 ?_⟩)
    exact List.mem_append_right _ (List.mem_map_of_mem he)
  | allOf ns =>
    exact .allOf (List.forall₂_same.2 fun n hn => hnodes n (List.mem_append_left _ hn))
  | anyOf ns place =>
    exact .anyOf (List.forall₂_same.2 fun n hn => hnodes n (List.mem_append_left _ hn))
  | oneOf ns place =>
    exact .oneOf (List.forall₂_same.2 fun n hn => hnodes n (List.mem_append_left _ hn))
  | tuple ns =>
    exact .tuple (List.forall₂_same.2 fun n hn => hnodes n (List.mem_append_right _ hn))
  | properties entries skipNull =>
    refine .properties skipNull (.refl fun e he => ⟨rfl, hnodes e.2 ?_⟩)
    exact List.mem_append_right _ (List.mem_map_of_mem he)
  | additionalItems limit n =>
    exact .additionalItems limit (hnodes n (by simp [nodes, nodesBelow]))

namespace Validator

/-- The runs of a validator on equal values go side by side. -/
theorem FormFree.simulates {w : Validator} (hw : w.FormFree) :
    w.scope.Simulates w.scope (Json.Corresponds Number.Same) (fun n m => n = m ∧ n.FormFree) where
  value v v' hv := hv.shape
  type := by
    rintro n _ v v' ⟨rfl, -⟩ hv
    rw [n.heading.acceptsType_congr hv]
  missing := by
    rintro n _ v v' ⟨rfl, -⟩ hv
    rw [n.heading.missing_congr hv]
  absent := by
    rintro n _ ⟨rfl, -⟩
    rfl
  checks := by
    rintro n _ ⟨rfl, hn⟩
    refine .refl fun c hc => .refl (fun r place hr v v' hv => ?_) fun m hm => ⟨rfl, hn.nested hc hm⟩
    exact Rule.fault?_congr (by simpa [hr, Check.looksAtForm] using hn n .refl c hc) hv
  target := by
    rintro n _ - c - k -
    show Option.Rel _ (w.subroutines.lookup k) (w.subroutines.lookup k)
    cases hk : w.subroutines.lookup k with
    | none => exact .none
    | some m => exact .some ⟨rfl, hw.2 k m hk⟩

/-- **Equal values are valid or not alike.** Without `multipleOf` and custom rules, and whatever
cycles of references there are, a value is valid if one is that differs from it only in the order of
members, at any depth, and in the form of numbers. -/
theorem isValid_eq_of_same (w : Validator) (hw : w.FormFree) {a b : Json} (ha : a.distinct)
    (h : a.Same b) : w.isValid a = w.isValid b :=
  hw.simulates.isValid_eq ⟨rfl, hw.1⟩ (.of_same ha h)

/-- Objects that are nested under `rest`, whose lists do not have an item twice. Whether an object
is one depends on the object itself as well. -/
def nested : Json := .object
  [("properties", .object
      [("rest", .object [("$ref", .string "#")]),
        ("mark", .object [("enum", .array [.number (.integer 1)])])]),
    ("additionalProperties", .object [("type", .string "array"), ("uniqueItems", .bool true)]),
    ("anyOf", .array
      [.object [("$ref", .string "#")], .object [("maxProperties", .number (.integer 0))]])]

/-- An object with its members in an order of choice and the number one in a form of choice. -/
def marked (order : Members → Members) (one : Number) : Json :=
  .object (order
    [("mark", .number one),
      ("rest", .object (order
        [("all", .array [.number one, .number (.integer 2)]), ("mark", .number one)]))])

theorem isValid_eq_of_same_nested :
    ∃ w, Options.build {} nested = .ok w ∧ w.isValid (marked id (.integer 1)) = true ∧
      w.isValid (marked List.reverse (.double (.ofInt 1))) = true := by
  have hrun : (Options.build {} nested).toOption.map (·.isValid (marked id (.integer 1))) =
      some true := by decide +kernel
  obtain ⟨w, hw, hvalid⟩ := Options.build_of_run hrun
  have hfree : w.FormFree := Options.build_formFree rfl (by decide) hw
  have hsame : (marked id (.integer 1)).Same (marked List.reverse (.double (.ofInt 1))) := by
    decide +kernel
  exact ⟨w, hw, hvalid, isValid_eq_of_same w hfree (by decide) hsame ▸ hvalid⟩

end Validator

end JsonSchema
