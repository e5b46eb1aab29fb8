import JsonSchema.Proofs.Findings
import JsonSchema.Proofs.Greedy
import JsonSchema.Proofs.Territories

/-!
# Where violations point

The field of a violation is the path of a value that is there, and the reported value is this value;
for a member that an object must not have, it is the field of the member. Only what is required
points to a path without a value, one step below a value that is there. The paths of a run go down
with it, so this holds below targets and formats as well.

* `Violation.PointsTo`: what a violation says of a value;
* `Scope.Comes.at?`, `Scope.Comes.has`: a run comes to values of the value and to nodes of the
  scope;
* `Node.Finds.pointsTo`: what a node finds points to its value;
* `Validator.violations_point`: all violations of a validator point to the value.
-/

namespace JsonSchema

/-- The node is the root of a validator or of a target, or it occurs in one of these. -/
def Validator.Has (w : Validator) (n : Node) : Prop :=
  n.Within w.root ∨ ∃ t k, w.subroutines.lookup t = some k ∧ n.Within k

/-- A violation that a validator reports of the value `v` points to the path `p` there. The reported
value is only there if there are details. -/
inductive Violation.PointsTo (w : Validator) (v : Json) (x : Violation) (p : Path) : Prop
  /-- The value at the path is wrong. -/
  | value {u : Json} : x.kind ≠ .required → x.kind ≠ .additionalProperties → v.at? p = some u →
      (∀ d, x.details = some d → d.value = some u) → PointsTo w v x p
  /-- The object at the path must not have one of its members. -/
  | rejected {ms : Members} {e : String × Json} : x.kind = .additionalProperties →
      v.at? p = some (.object ms) → e ∈ ms →
      (∀ d, x.details = some d → d.value = some (.string (Path.field (p ++ [.name e.1])))) →
      PointsTo w v x p
  /-- A node requires the value at the path, one step below a value that is there. -/
  | absent {q : Path} {seg : Segment} {u : Json} {n : Node} : x.kind = .required →
      p = q ++ [seg] → v.at? q = some u → v.at? p = none → w.Has n → n.heading.required = true →
      (∀ d, x.details = some d → d.value = none) → PointsTo w v x p
  /-- A node requires a member of the object above the path. -/
  | missing {q : Path} {name : String} {ms : Members} {n : Node} : x.kind = .required →
      p = q ++ [.name name] → v.at? q = some (.object ms) → v.at? p = none → w.Has n →
      name ∈ n.heading.requiredNames → (∀ d, x.details = some d → d.value = some (.object ms)) →
      PointsTo w v x p

/-! ## Values and nodes of a run -/

section Runs

variable {s : Scope} {n m : Node} {v u : Json} {q : Path}

theorem Node.Within.trans {k : Node} (hmn : m.Within n) (hnk : n.Within k) : m.Within k := by
  induction hnk with
  | refl => exact hmn
  | step hc hj _ ih => exact .step hc hj ih

theorem Check.Comes.at? {c : Check} {k : Node} {w : Json} {below : Option Segment}
    (hd : v.distinct) (h : c.Comes v k w below) : v.at? below.toList = some w := by
  cases below with
  | none =>
    rcases h.mem with ⟨-, rfl, -⟩ | ⟨⟨seg, hseg⟩, -⟩
    · rfl
    · cases hseg
  | some seg =>
    have hchild := h.child? hd
    simp [Json.at?, hchild]

theorem Check.Comes.distinct {c : Check} {k : Node} {w : Json} {below : Option Segment}
    (hd : v.distinct) (h : c.Comes v k w below) : w.distinct := by
  rcases h.mem with ⟨-, rfl, -⟩ | ⟨-, hw, -⟩
  · exact hd
  · exact Json.distinct_of_mem_parts hd hw

/-- The value that a run has come to is the one at its path. -/
theorem Scope.Comes.at? (hd : v.distinct) (h : s.Comes n v q m u) : v.at? q = some u := by
  induction h with
  | here => rfl
  | visit hc hk _ ih =>
    rw [Json.at?_append, hk.at? hd]
    exact ih (hk.distinct hd)
  | format _ _ _ ih => exact ih hd

/-- A run comes to nodes that occur in its node or in a target. -/
theorem Scope.Comes.has (h : s.Comes n v q m u) :
    m.Within n ∨ ∃ t k, s.subroutines.lookup t = some k ∧ m.Within k := by
  induction h with
  | here => exact .inl .refl
  | visit hc hk _ ih =>
    refine ih.imp_left fun hm => .step hc ?_ hm
    rcases hk.mem with ⟨-, -, hmem⟩ | ⟨-, -, hmem⟩
    · exact List.mem_append_left _ hmem
    · exact List.mem_append_right _ hmem
  | format _ hk _ ih =>
    rcases ih with hm | hm
    · exact .inr ⟨_, _, hk, hm⟩
    · exact .inr hm

theorem Validator.Has.within {w : Validator} (hn : w.Has n) (hm : m.Within n) : w.Has m := by
  rcases hn with hn | ⟨t, k, hk, hn⟩
  · exact .inl (hm.trans hn)
  · exact .inr ⟨t, k, hk, hm.trans hn⟩

theorem Validator.has_of_comes {w : Validator} (h : w.scope.Comes w.root v q m u) : w.Has m := h.has

end Runs

/-! ## Findings -/

section Findings

variable {w : Validator} {v u : Json} {q : Path} {n : Node} {x : Violation}

theorem Json.at?_snoc {seg : Segment} (hu : v.at? q = some u) :
    v.at? (q ++ [seg]) = u.child? seg := by
  rw [at?_append, hu]
  cases h : u.child? seg <;> simp [at?, h]

/-- The value that the violation reports, if it reports any. -/
theorem value_of_violation {h : Heading} {path place : Path} {kind : Violation.Kind}
    {value : Option Json} :
    ∀ d, (violation h path kind value place).details = some d → d.value = value := by
  intro d hd
  obtain rfl := Option.some.inj hd
  rfl

/-- A check points to the value at the path, or to a part that this value does not have. -/
theorem Check.Finds.pointsTo {c : Check} (hu : v.at? q = some u) (hn : w.Has n)
    (hc : c ∈ n.checks) (h : c.Finds n.heading u q x) : x.PointsTo w v x.path := by
  cases h with
  | @rule r place kind hkind =>
    obtain ⟨hrequired, hrejected⟩ := (Rule.covers_of_fault? hkind).ne
    exact .value hrequired hrejected hu value_of_violation
  | dependency he => exact .value nofun nofun hu value_of_violation
  | closed hms he =>
    rw [hms] at hu
    exact .rejected rfl hu he value_of_violation
  | verdict hkind =>
    refine .value ?_ ?_ hu value_of_violation
    · rintro rfl
      cases c <;> simp [demand?] at hkind
    · rintro rfl
      cases c <;> simp [demand?] at hkind
  | @absent c k seg hk hseg hrequired =>
    have hwithin : k.Within n := .step hc (List.mem_append_right _ hk) .refl
    have hnone : v.at? (q ++ [seg]) = none := by rw [Json.at?_snoc hu, hseg]
    exact .absent rfl rfl hu hnone (hn.within hwithin) hrequired value_of_violation

/-- **What a node finds points to its value**, which is the one at the path. -/
theorem Node.Finds.pointsTo (hu : v.at? q = some u) (hn : w.Has n) (h : n.Finds u q x) :
    x.PointsTo w v x.path := by
  cases h with
  | type htype => exact .value nofun nofun hu value_of_violation
  | @missing name hname =>
    cases u with
    | object ms =>
      obtain ⟨hmem, hnot⟩ := List.mem_filter.mp hname
      have hnone : ms.lookup name = none := by
        simpa [Members.has] using hnot
      have habsent : v.at? (q ++ [.name name]) = none := by
        rw [Json.at?_snoc hu]
        exact hnone
      exact .missing rfl rfl hu habsent hn hmem value_of_violation
    | _ => simp [Heading.missing] at hname
  | check hc hx => exact hx.pointsTo hu hn hc

theorem Violation.PointsTo.keep {y : Violation} {p : Path} (hkind : y.kind = x.kind)
    (hdetails : ∀ d, y.details = some d → x.details = some d) (h : x.PointsTo w v p) :
    y.PointsTo w v p := by
  have hvalue : ∀ {value : Option Json}, (∀ d, x.details = some d → d.value = value) →
      ∀ d, y.details = some d → d.value = value := fun hx d hd => hx d (hdetails d hd)
  cases h with
  | value hr ha hu hd => exact .value (hkind ▸ hr) (hkind ▸ ha) hu (hvalue hd)
  | rejected hk hu he hd => exact .rejected (hkind.trans hk) hu he (hvalue hd)
  | absent hk hp hu hnone hn hr hd =>
    exact .absent (hkind.trans hk) hp hu hnone hn hr (hvalue hd)
  | missing hk hp hu hnone hn hr hd =>
    exact .missing (hkind.trans hk) hp hu hnone hn hr (hvalue hd)

end Findings

/-! ## Validators -/

namespace Validator

/-- What a validator lists it has found, and it keeps the details only if it is verbose. -/
theorem exists_report {w : Validator} {v : Json} {vs : List Violation} {x : Violation}
    (h : w.validate v = .error vs) (hx : x ∈ vs) :
    ∃ y ∈ w.root.reports w.scope v {}, x = if w.options.verbose then y else y.brief := by
  rw [validate_eq, verdict_reportAll] at h
  split at h
  · cases h
  · cases h
    obtain ⟨y, hy, hx⟩ := List.mem_flatMap.mp hx
    refine ⟨y, hy, ?_⟩
    unfold recording at hx
    cases hverbose : w.options.verbose with
    | true =>
      simp only [hverbose, if_true] at hx
      simpa [Tally.keep] using hx
    | false =>
      simp only [hverbose, Bool.false_eq_true, if_false] at hx
      simpa [Tally.keep] using hx

theorem details_isSome {s : Scope} {n : Node} {v : Json} {p : Site} {x : Violation}
    (hx : x ∈ n.reports s v p) : x.details.isSome = true := by
  obtain ⟨q, m, u, -, hfinds⟩ := Node.exists_finds hx
  cases hfinds with
  | check _ h => cases h <;> rfl
  | _ => rfl

/-- **Violations point to the value.** The field of each violation is the text of a path to a value
that is there, and the reported value is this value, or the field of a rejected member of it. Only
the path of something required leads nowhere, one step below a value that is there; a node that is
itself required reports no value, and one that requires the member reports the object. Values are
reported by verbose validators only. -/
theorem violations_point {w : Validator} {v : Json} (hd : v.distinct) {vs : List Violation}
    (h : w.validate v = .error vs) :
    ∀ x ∈ vs, x.details.isSome = w.options.verbose ∧
      ∃ p : Path, x.field = p.field ∧ x.PointsTo w v p := by
  intro x hx
  obtain ⟨y, hy, rfl⟩ := exists_report h hx
  obtain ⟨q, n, u, hcomes, hfinds⟩ := Node.exists_finds hy
  have hpoints := hfinds.pointsTo (hcomes.at? hd) (has_of_comes hcomes)
  cases hverbose : w.options.verbose with
  | true => exact ⟨details_isSome hy, y.path, rfl, hpoints⟩
  | false =>
    have hbrief : y.brief.PointsTo w v y.path := .keep (x := y) rfl nofun hpoints
    exact ⟨rfl, y.path, rfl, hbrief⟩

/-- Objects whose items, behind a format that is a schema and under `allOf`, must have a member. -/
def pointed : Json := .object
  [("properties", .object
      [("a", .object [("format", .string "pairs")]), ("b", .object [("required", .bool true)])]),
    ("additionalProperties", .bool false)]

def pairs : Json := .object
  [("items", .array [.object [], .object [("allOf", .array
    [.object [("required", .array [.string "name"])]])]])]

theorem violations_point_pointed :
    ∃ w vs, Options.build { verbose := true, formats := [("pairs", .schema pairs)] } pointed =
        .ok w ∧
      w.validate (.object [("a", .array [.null, .object []]), ("c", .null)]) = .error vs ∧
        vs.map Violation.field = ["data", "data.a[1].name", "data.b"] ∧
          ∀ x ∈ vs, x.details.isSome = w.options.verbose ∧
            ∃ p : Path, x.field = p.field ∧
              x.PointsTo w (.object [("a", .array [.null, .object []]), ("c", .null)]) p := by
  have hrun : ((Options.build { verbose := true, formats := [("pairs", .schema pairs)] }
      pointed).toOption.map fun w => (listed (w.validate
        (.object [("a", .array [.null, .object []]), ("c", .null)]))).map Violation.field) =
      some ["data", "data.a[1].name", "data.b"] := by decide +kernel
  obtain ⟨w, hbuild, hw⟩ := Options.build_of_run hrun
  have hd : (Json.object [("a", .array [.null, .object []]), ("c", .null)]).distinct = true := by
    decide
  cases hv : w.validate (.object [("a", .array [.null, .object []]), ("c", .null)]) with
  | ok => simp [hv, listed] at hw
  | error vs => exact ⟨w, vs, hbuild, hv, by simpa [hv, listed] using hw, violations_point hd hv⟩

end Validator

end JsonSchema
