import JsonSchema.Proofs.Recording

/-!
# Greedy runs

Missing members stop a node, so that only the checks before them have reported; in a greedy run
the node goes on with the rest of its checks. A node that is stopped has reported the missing
members already. So the greedy run has more to report, but never something to report where the
other run has nothing, and no verdict changes: not of a target, and not of a nested node under
`not`, `anyOf` or `oneOf`.

* `Extra`: a list of reports with further ones between them, if it has any;
* `Node.extra_mk`, `Check.extra_direct`: the step for a node and for its checks;
* `Node.reports_extra`: what a greedy run of a node adds;
* `Validator.greedy_adds_reports`: the results of a validator that is greedy and of one that is not.
-/

namespace JsonSchema

/-! ## Further reports -/

/-- The second list has the reports of the first one, in their order, and others between them. If
the first one is empty, so is the second. -/
structure Extra (vs ws : List Violation) : Prop where
  sublist : vs.Sublist ws
  nil : vs = [] → ws = []

namespace Extra

variable {vs ws vs' ws' : List Violation}

theorem refl (vs : List Violation) : Extra vs vs := ⟨List.Sublist.refl vs, id⟩

theorem isEmpty_eq (h : Extra vs ws) : vs.isEmpty = ws.isEmpty := by
  rw [Bool.eq_iff_iff, List.isEmpty_iff, List.isEmpty_iff]
  constructor
  · exact h.nil
  · intro hw
    have hsub := h.sublist
    rw [hw] at hsub
    exact List.sublist_nil.mp hsub

theorem append (h : Extra vs ws) (h' : Extra vs' ws') : Extra (vs ++ vs') (ws ++ ws') := by
  constructor
  · exact h.sublist.append h'.sublist
  · intro hnil
    obtain ⟨hvs, hvs'⟩ := List.append_eq_nil_iff.mp hnil
    rw [h.nil hvs, h'.nil hvs', List.append_nil]

theorem flatMap {α : Type} {f g : α → List Violation} {xs : List α}
    (h : ∀ x ∈ xs, Extra (f x) (g x)) : Extra (xs.flatMap f) (xs.flatMap g) := by
  induction xs with
  | nil => exact refl []
  | cons x xs ih =>
    have hx := h x List.mem_cons_self
    have hxs := ih fun y hy => h y (List.mem_cons_of_mem x hy)
    simpa only [List.flatMap_cons] using hx.append hxs

/-- After a list that is not empty there may be any reports. -/
theorem append_right (h : Extra vs ws) (hne : vs ≠ []) (us : List Violation) :
    Extra vs (ws ++ us) := by
  constructor
  · exact h.sublist.trans (List.sublist_append_left ws us)
  · intro hnil
    exact absurd hnil hne

end Extra

/-! ## Runs -/

section Runs

variable {T : Subroutines} {n : Node} {c : Check} {h : Heading} {v : Json} {p : Site}

/-- A greedy run of the node on the value adds reports to those of a run that is not greedy. -/
def Node.Extra (T : Subroutines) (n : Node) (v : Json) (p : Site) : Prop :=
  JsonSchema.Extra (n.reports ⟨T, false⟩ v p) (n.reports ⟨T, true⟩ v p)

def Check.Extra (T : Subroutines) (c : Check) (v : Json) (p : Site) : Prop :=
  ∀ h, JsonSchema.Extra (c.reports ⟨T, false⟩ h v p) (c.reports ⟨T, true⟩ h v p)

/-- Where a greedy run only adds reports, the verdicts are the same. -/
theorem Node.Extra.accepts_eq (h : n.Extra T v p) :
    n.accepts ⟨T, false⟩ v p = n.accepts ⟨T, true⟩ v p := by
  rw [n.accepts_eq_isEmpty, n.accepts_eq_isEmpty]
  exact h.isEmpty_eq

theorem Check.extra_demand {holds holds' : Bool} (heq : holds = holds') (kind : Violation.Kind)
    (place : Path) :
    JsonSchema.Extra (h.demandReports holds kind v place p)
      (h.demandReports holds' kind v place p) := by
  rw [heq]
  exact .refl _

theorem Check.answers_greedy {k : Target}
    (target : ∀ n, T.lookup k = some n → k ∉ p.entered → n.Extra T v (p.enter k)) :
    answers ⟨T, false⟩ k v p = answers ⟨T, true⟩ k v p := by
  unfold answers
  cases hn : T.lookup k with
  | none => rfl
  | some n =>
    by_cases hk : k ∈ p.entered
    · simp [hk]
    · have haccepts := (target n hn hk).accepts_eq
      simp only [Node.accepts] at haccepts
      simp only [hk, decide_false, Bool.false_or, haccepts]

theorem Check.extra_schemaFormat {name : String}
    (target : ∀ n, T.lookup (.format name) = some n → .format name ∉ p.entered →
      n.Extra T v (p.enter (.format name))) : (schemaFormat name).Extra T v p := by
  intro h
  rw [reports_schemaFormat, reports_schemaFormat]
  cases hn : T.lookup (.format name) with
  | none => exact .refl []
  | some n =>
    by_cases hk : .format name ∈ p.entered
    · simp only [hk, if_true]
      exact .refl []
    · simp only [hk, if_false]
      exact target n hn hk

/-- A check without verdicts adds the reports that the nodes it comes to add. -/
theorem Check.extra_direct (hc : c.direct = true)
    (visit : ∀ n w below, .visit n w below ∈ c.actions v p.path → n.Extra T w (p.at below)) :
    c.Extra T v p := by
  intro h
  rw [reports_direct _ _ _ _ hc, reports_direct _ _ _ _ hc]
  apply JsonSchema.Extra.flatMap
  intro a ha
  cases a with
  | report kind value place => exact .refl _
  | absent h' below => exact .refl _
  | visit n w below => exact visit n w below ha

/-- **The step for a node.** Only at missing members do the two runs part, and these are reported
by both. -/
theorem Node.extra_mk (h : Heading) (head tail : List Check)
    (checks : ∀ c ∈ head ++ tail, c.Extra T v p) : (mk h head tail).Extra T v p := by
  have hhead := Extra.flatMap fun c hc => checks c (List.mem_append_left tail hc) h
  have htail := Extra.flatMap fun c hc => checks c (List.mem_append_right head hc) h
  have hfront := hhead.append (.refl (h.missingReports v p))
  unfold Node.Extra
  rw [reports_mk, reports_mk]
  by_cases htype : h.acceptsType v = true
  · simp only [htype, if_true, or_true]
    by_cases hmissing : h.missing v = []
    · simp only [hmissing, true_or, if_true]
      exact hfront.append htail
    · simp only [hmissing, Bool.false_eq_true, or_self, if_false, List.append_nil]
      refine hfront.append_right ?_ _
      simp [Heading.missingReports, hmissing]
  · simp only [htype, Bool.false_eq_true, if_false]
    exact .refl _

/-- **A greedy run only adds reports**, at every node, and adds none where there are none. -/
theorem Node.reports_extra (T : Subroutines) (n : Node) (v : Json) (p : Site) : n.Extra T v p := by
  have key := Scope.run_induction ⟨T, false⟩ (P := Node.Extra T) (Q := Check.Extra T) ?_ ?_
  · exact key.1 n v p
  · rintro ⟨h, head, tail⟩ v p checks
    exact extra_mk h head tail checks
  · intro c v p here below target
    cases c using Check.byKind with
    | reference text place =>
      intro h
      rw [Check.reports_reference, Check.reports_reference]
      exact Check.extra_demand (Check.answers_greedy fun n => target _ n rfl) _ _
    | schemaFormat name => exact Check.extra_schemaFormat fun n => target _ n rfl
    | negation n place =>
      intro h
      have hn := (here n (by simp [Check.nodesHere])).accepts_eq
      rw [Check.reports_negation, Check.reports_negation]
      exact Check.extra_demand (congrArg not hn) _ _
    | anyOf ns place =>
      intro h
      have hns : ns.any (fun n => n.accepts ⟨T, false⟩ v p) =
          ns.any fun n => n.accepts ⟨T, true⟩ v p := by
        rw [Bool.eq_iff_iff, List.any_eq_true, List.any_eq_true]
        exact exists_congr fun n => and_congr_right fun hn => by rw [(here n hn).accepts_eq]
      rw [Check.reports_anyOf, Check.reports_anyOf]
      exact Check.extra_demand hns _ _
    | oneOf ns place =>
      intro h
      have hns : ns.countP (fun n => n.accepts ⟨T, false⟩ v p) =
          ns.countP fun n => n.accepts ⟨T, true⟩ v p :=
        List.countP_congr fun n hn => by rw [(here n hn).accepts_eq]
      rw [Check.reports_oneOf, Check.reports_oneOf]
      exact Check.extra_demand (by rw [hns]) _ _
    | direct c hc =>
      refine Check.extra_direct hc fun n w seg ha => ?_
      rcases Check.mem_of_visit ha with ⟨rfl, rfl, hn⟩ | ⟨⟨seg, rfl⟩, hw, hn⟩
      · exact here n hn
      · exact below n hn w hw seg

end Runs

/-! ## Validators -/

namespace Validator

/-- The violations that a result lists. -/
def listed : Except (List Violation) Unit → List Violation
  | .ok () => []
  | .error vs => vs

theorem listed_validate (w : Validator) (v : Json) :
    listed (w.validate v) =
      (w.root.reports w.scope v {}).flatMap (Tally.keep w.recording) := by
  rw [validate_eq, verdict_reportAll]
  split
  · next hnil =>
    rw [hnil]
    rfl
  · rfl

def withGreedy (w : Validator) (b : Bool) : Validator :=
  { w with options := { w.options with greedy := b } }

theorem build_withGreedy {o : Options} {schema : Json} {w : Validator}
    (h : o.build schema = .ok w) (b : Bool) :
    Options.build { o with greedy := b } schema = .ok (w.withGreedy b) := by
  obtain ⟨hcompile, rfl, rfl⟩ := Options.build_eq_ok.1 h
  have hregisters : w.options.Registers { w.options with greedy := b } := ⟨rfl, rfl, rfl⟩
  exact Options.build_eq_ok.2 ⟨(compile_congr hregisters w.schema).trans hcompile, rfl, rfl⟩

/-- **Being greedy only adds violations.** A schema that builds with some options builds whether
they are greedy or not. The two validators accept the same values, and what the one that is not
greedy lists of a value the greedy one lists as well, in the same order and with the same
details. -/
theorem greedy_adds_reports {o : Options} {schema : Json} {w : Validator}
    (hbuild : o.build schema = .ok w) :
    ∃ short long, Options.build { o with greedy := false } schema = .ok short ∧
      Options.build { o with greedy := true } schema = .ok long ∧
        ∀ v, short.isValid v = long.isValid v ∧
          (listed (short.validate v)).Sublist (listed (long.validate v)) := by
  refine ⟨w.withGreedy false, w.withGreedy true, build_withGreedy hbuild false,
    build_withGreedy hbuild true, fun v => ?_⟩
  have hextra := w.root.reports_extra w.subroutines v {}
  constructor
  · rw [isValid_eq, isValid_eq]
    exact hextra.isEmpty_eq
  · rw [listed_validate, listed_validate]
    exact hextra.sublist.flatMap _

def demanding : Json := .object
  [("required", .array [.string "a", .string "b"]),
    ("properties", .object [("b", .object [("minLength", .number (.integer 5))])]),
    ("not", .object [("required", .array [.string "c"]), ("minProperties", .number (.integer 2))])]

/-- Without its first member, an object with a short second one has a further violation for the
greedy validator. -/
theorem greedy_adds_reports_demanding :
    ∃ short long, Options.build { verbose := true } demanding = .ok short ∧
      Options.build { verbose := true, greedy := true } demanding = .ok long ∧
        (listed (short.validate (.object [("b", .string "x")]))).length = 1 ∧
          (listed (long.validate (.object [("b", .string "x")]))).length = 2 ∧
            (listed (short.validate (.object [("b", .string "x")]))).Sublist
              (listed (long.validate (.object [("b", .string "x")]))) := by
  have hshort : ((Options.build { verbose := true } demanding).toOption.map fun w =>
      (listed (w.validate (.object [("b", .string "x")]))).length) = some 1 := by decide +kernel
  have hlong : ((Options.build { verbose := true, greedy := true } demanding).toOption.map fun w =>
      (listed (w.validate (.object [("b", .string "x")]))).length) = some 2 := by decide +kernel
  obtain ⟨w, hw, hone⟩ := Options.build_of_run hshort
  obtain ⟨w', hw', htwo⟩ := Options.build_of_run hlong
  obtain ⟨short, long, hbuild, hbuild', hadds⟩ := greedy_adds_reports hw
  cases hw.symm.trans hbuild
  cases hw'.symm.trans hbuild'
  exact ⟨w, w', hw, hw', hone, htwo, (hadds _).2⟩

end Validator

end JsonSchema
