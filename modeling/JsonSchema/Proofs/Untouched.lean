import JsonSchema.Proofs.Filtered
import JsonSchema.Proofs.Recording
import JsonSchema.Proofs.Resting

/-!
# Accepted values are left alone

A run that only looks at a value and a mutating run come to the same nodes. A closed node that
rejects a member reports it, so where the first run reports nothing, the second one has nothing to
remove: a value that is accepted keeps all its members, at every depth.

* `Check.strips_of_reports`: what a check would remove it reports;
* `Node.still_of_accepts`: a mutating run leaves an accepted value alone;
* `Validator.validateMut_of_isValid`: filtering does not touch valid values.
-/

namespace JsonSchema

section

variable {s : Scope} {m : Changes} {c : Check} {h : Heading} {v : Json} {p : Site}

/-- A member that a check would remove is reported. -/
theorem Check.strips_of_reports (hc : c.reports s h v p = []) : c.strips v = false := by
  cases c with
  | closed declared place =>
    cases v with
    | object ms =>
      have hdirect : (closed declared place).direct = true := rfl
      rw [reports_direct s _ p h hdirect, List.flatMap_eq_nil_iff] at hc
      rw [strips, List.any_eq_false]
      intro e he hrejected
      have hreport := hc _ (List.mem_map_of_mem (List.mem_filter.2 ⟨he, hrejected⟩))
      cases hreport
    | _ => rfl
  | _ => rfl

theorem Check.Comes.reports {k : Node} {w : Json} {below : Option Segment}
    (hcomes : c.Comes v k w below) (hc : c.reports s h v p = []) :
    k.reports s w (p.at below) = [] := by
  have hdirect : c.direct = true := by cases hcomes <;> rfl
  rw [reports_direct s v p h hdirect, List.flatMap_eq_nil_iff] at hc
  exact hc _ hcomes.visit

theorem Check.reports_of_target {k : Target} {n : Node} (hk : c.target? = some k)
    (hn : s.subroutines.lookup k = some n) (he : k ∉ p.entered) (hc : c.reports s h v p = []) :
    n.reports s v (p.enter k) = [] := by
  have hanswer : answers s k v p = true := by
    cases c with
    | reference text place =>
      cases hk
      rwa [reports_reference, Heading.demandReports_eq_nil] at hc
    | schemaFormat name =>
      cases hk
      rwa [reports_schemaFormat_eq_nil] at hc
    | _ => cases hk
  rw [answers, hn] at hanswer
  simp only [he, decide_false, Bool.false_or] at hanswer
  exact Node.reports_eq_nil.2 hanswer

/-- **A mutating run leaves an accepted value alone.** -/
theorem Node.still_of_accepts {n : Node} (hn : n.accepts s v p = true) : n.Still s m v p := by
  have key : (∀ (n : Node) v p, n.reports s v p = [] → n.Still s m v p) ∧
      ∀ (c : Check) v p, ∀ h, c.reports s h v p = [] → c.Still s m v p := by
    apply s.run_induction
    · intro n v p ih hn
      have hchecks := ((Node.reports_eq_nil_iff s n v p).1 hn).2.2
      refine Node.still_iff.2 fun c hdue => ?_
      have hc := Node.mem_checks_of_due hdue
      exact ih c hc n.heading (hchecks c hc)
    · intro c v p here below target h hc
      refine ⟨fun _ => Check.strips_of_reports hc, fun k w q hvisit => ?_⟩
      cases hvisit with
      | nested hcomes =>
        have hk := hcomes.reports hc
        rcases hcomes.mem with ⟨rfl, rfl, hmem⟩ | ⟨⟨seg, rfl⟩, hw, hmem⟩
        · exact here k hmem hk
        · exact below k hmem w hw seg hk
      | target hk hlookup he =>
        exact target _ _ hk hlookup he (Check.reports_of_target hk hlookup he hc)
  exact key.1 n v p (Node.reports_eq_nil.2 hn)

end

/-! ## Validators -/

namespace Validator

/-- **Filtering does not touch valid values.** Where no schema object that is reached has a default,
a mutating run on a valid value succeeds and leaves the value as it is. -/
theorem validateMut_of_isValid {o : Options} {schema : Json} {w : Validator}
    (hbuild : o.build schema = .ok w) (hdefaults : NoDefaults schema o) {v : Json}
    (hd : v.distinct) (hvalid : w.isValid v = true) :
    w.validateMut v = some (.ok (), v) := by
  have hstill : w.root.Still w.scope w.changes v {} := by
    refine Node.still_of_accepts ?_
    rwa [Node.accepts_eq_isEmpty, ← isValid_eq]
  rw [validateMut_of_still (hdefaults.fillsNothing hbuild) hd hstill,
    (w.isValid_iff_validate v).1 hvalid]

/-- Objects that may have such an object again and members whose names start with `x`, and nothing
else. -/
def spared : Json := .object
  [("properties", .object [("next", .object [("$ref", .string "#")])]),
    ("patternProperties", .object [("^x", .object [("type", .string "number")])]),
    ("additionalProperties", .bool false)]

/-- A chain of two objects with a member that a pattern declares. -/
def sparedChain : Json := .object
  [("x", .number (.integer 1)), ("next", .object [("xy", .number (.integer 2))])]

theorem validateMut_of_isValid_spared :
    ∃ w, Options.build { filter := true } spared = .ok w ∧
      w.isValid (.object [("y", .null)]) = false ∧
        w.validateMut sparedChain = some (.ok (), sparedChain) := by
  have hrun : ((Options.build { filter := true } spared).toOption.map fun w =>
      (w.isValid sparedChain, w.isValid (.object [("y", .null)]))) = some (true, false) := by
    decide +kernel
  obtain ⟨w, hbuild, hw⟩ := Options.build_of_run hrun
  obtain ⟨hvalid, hrejected⟩ := Prod.mk.inj hw
  have hdefaults : NoDefaults spared { filter := true } :=
    .of_documents (List.forall_mem_singleton.2 (by decide))
  exact ⟨w, hbuild, hrejected, validateMut_of_isValid hbuild hdefaults (by decide) hvalid⟩

end Validator

end JsonSchema
