import JsonSchema.Proofs.Actions

/-!
# Reports of a run

A run adds the same violations to every tally, whatever the tally holds already. These are its
reports, and the tally only decides how many of them it keeps.

* `Tally.reportAll`: a tally after several reports;
* `Node.check_eq`, `Check.check_eq`: a run adds its reports to the tally;
* `Node.reports_mk`, `Check.reports_direct`, ...: the reports of a node and of its checks.
-/

namespace JsonSchema

/-! ## Several reports -/

namespace Tally

def reportAll (t : Tally) (vs : List Violation) : Tally := vs.foldl report t

theorem reportAll_append (t : Tally) (vs ws : List Violation) :
    t.reportAll (vs ++ ws) = (t.reportAll vs).reportAll ws := by
  rw [reportAll, List.foldl_append]
  rfl

theorem count_reportAll (t : Tally) (vs : List Violation) :
    (t.reportAll vs).count = t.count + vs.length := by
  induction vs generalizing t with
  | nil => rfl
  | cons v vs ih =>
    have h : (t.reportAll (v :: vs)).count = (t.report v).count + vs.length := ih (t.report v)
    rw [h, count_report, List.length_cons]
    omega

theorem records_reportAll (t : Tally) (vs : List Violation) :
    (t.reportAll vs).records = t.records ++ vs.flatMap (keep t.recording) := by
  induction vs generalizing t with
  | nil => simp [reportAll]
  | cons v vs ih =>
    have h : (t.reportAll (v :: vs)).records =
        (t.report v).records ++ vs.flatMap (keep t.recording) := ih (t.report v)
    rw [h, report, List.flatMap_cons, List.append_assoc]

theorem records_reportAll_start (vs : List Violation) :
    ((start .verbose).reportAll vs).records = vs := by
  rw [records_reportAll]
  exact List.flatMap_singleton' vs

end Tally

/-- A step of a run that adds certain reports to every tally. -/
def Emits (f : Tally → Tally) (vs : List Violation) : Prop := ∀ t, f t = t.reportAll vs

namespace Emits

variable {f g : Tally → Tally} {vs ws : List Violation}

theorem comp (hf : Emits f vs) (hg : Emits g ws) : Emits (fun t => g (f t)) (vs ++ ws) := by
  intro t
  show g (f t) = _
  rw [hf, hg, Tally.reportAll_append]

theorem foldl {α : Type} {step : α → Tally → Tally} {reports : α → List Violation} {xs : List α}
    (h : ∀ x ∈ xs, Emits (step x) (reports x)) :
    Emits (fun t => xs.foldl (fun t x => step x t) t) (xs.flatMap reports) := by
  induction xs with
  | nil => exact fun t => rfl
  | cons x xs ih =>
    have hx := h x List.mem_cons_self
    have hxs := ih fun y hy => h y (List.mem_cons_of_mem x hy)
    exact hx.comp hxs

/-- A probe passes when there is nothing to report. -/
theorem passes (h : Emits f vs) : Tally.passes f = vs.isEmpty := by
  rw [Tally.passes, h, Tally.count_reportAll]
  cases vs <;> simp [Tally.start]

/-- The reports can be read off a tally that keeps all of them. -/
theorem records (h : Emits f vs) : (f (Tally.start .verbose)).records = vs := by
  rw [h, Tally.records_reportAll_start]

theorem self (h : Emits f vs) : Emits f (f (Tally.start .verbose)).records := by
  rw [h.records]
  exact h

end Emits

/-! ## The reports of headings -/

namespace Heading

def missingReports (h : Heading) (v : Json) (p : Site) : List Violation :=
  (h.missing v).map fun name =>
    violation h (p.down (.name name)).path .required (some v) (h.place "required")

def absentReports (h : Heading) (p : Site) : List Violation :=
  if h.required && h.default.isNone then
    [violation h p.path .required none (h.place "required")]
  else []

/-- One report, unless the condition holds. -/
def demandReports (h : Heading) (holds : Bool) (kind : Violation.Kind) (v : Json) (place : Path)
    (p : Site) : List Violation :=
  if holds then [] else [violation h p.path kind (some v) place]

theorem emits_reportMissing (h : Heading) (v : Json) (p : Site) :
    Emits (h.reportMissing v p) (h.missingReports v p) := by
  intro t
  rw [reportMissing, missingReports, Tally.reportAll, List.foldl_map]

theorem emits_checkAbsent (h : Heading) (p : Site) :
    Emits (h.checkAbsent p) (h.absentReports p) := by
  intro t
  rw [checkAbsent, absentReports]
  split <;> rfl

theorem emits_demand (h : Heading) (holds : Bool) (kind : Violation.Kind) (v : Json)
    (place : Path) (p : Site) :
    Emits (h.demand holds kind v place p) (h.demandReports holds kind v place p) := by
  intro t
  rw [demand, demandReports]
  cases holds <;> rfl

end Heading

/-! ## The reports of nodes and of checks -/

def Node.reports (s : Scope) (n : Node) (v : Json) (p : Site) : List Violation :=
  (n.check s v p (Tally.start .verbose)).records

def Check.reports (s : Scope) (h : Heading) (c : Check) (v : Json) (p : Site) : List Violation :=
  (c.check s h v p (Tally.start .verbose)).records

def Action.reports (s : Scope) (h : Heading) (p : Site) : Action → List Violation
  | report kind value place => [violation h p.path kind value place]
  | absent h below => h.absentReports (p.down below)
  | visit n w below => n.reports s w (p.at below)

section Runs

variable (s : Scope)

theorem Check.emits_negation (h : Heading) (n : Node) (place : Path) (v : Json) (p : Site) :
    Emits ((negation n place).check s h v p)
      (h.demandReports (!n.accepts s v p) .not v place p) := by
  intro t
  rw [check]
  exact h.emits_demand _ _ v place p t

theorem Check.emits_anyOf (h : Heading) (ns : List Node) (place : Path) (v : Json) (p : Site) :
    Emits ((anyOf ns place).check s h v p)
      (h.demandReports (ns.any fun n => n.accepts s v p) .anyOf v place p) := by
  have hv : (ns.map fun n => n.accepts s v p).contains true = ns.any fun n => n.accepts s v p := by
    rw [List.contains_eq_any_beq, List.any_map]
    congr 1
    funext n
    simp
  intro t
  rw [check, ← h.emits_demand, ← hv]
  rfl

theorem Check.emits_oneOf (h : Heading) (ns : List Node) (place : Path) (v : Json) (p : Site) :
    Emits ((oneOf ns place).check s h v p)
      (h.demandReports (ns.countP (fun n => n.accepts s v p) == 1) .oneOf v place p) := by
  have hv : (ns.map fun n => n.accepts s v p).count true =
      ns.countP fun n => n.accepts s v p := by
    rw [List.count, List.countP_map]
    congr 1
    funext n
    simp
  intro t
  rw [check, ← h.emits_demand, ← hv]
  rfl

theorem Check.emits_reference (h : Heading) (text : String) (place : Path) (v : Json) (p : Site) :
    Emits ((reference text place).check s h v p)
      (h.demandReports (answers s (.reference text) v p) .reference v place p) := by
  intro t
  rw [check_reference]
  exact h.emits_demand _ _ v place p t

/-- A format that is a schema reports what its node reports on the same value. -/
theorem Check.emits_schemaFormat (h : Heading) (name : String) (v : Json) (p : Site)
    (hn : ∀ n, s.subroutines.lookup (.format name) = some n → .format name ∉ p.entered →
      Emits (n.check s v (p.enter (.format name))) (n.reports s v (p.enter (.format name)))) :
    Emits ((schemaFormat name).check s h v p)
      (match s.subroutines.lookup (.format name) with
        | some n =>
          if .format name ∈ p.entered then [] else n.reports s v (p.enter (.format name))
        | none => []) := by
  intro t
  rw [check_schemaFormat]
  cases hl : s.subroutines.lookup (.format name) with
  | none => rfl
  | some n =>
    by_cases hk : .format name ∈ p.entered
    · simp only [hk, if_true]
      rfl
    · simp only [hk, if_false]
      exact hn n hl hk t

theorem Action.emits (h : Heading) (p : Site) (a : Action)
    (hn : ∀ n w below, a = .visit n w below →
      Emits (n.check s w (p.at below)) (n.reports s w (p.at below))) :
    Emits (a.run s h p) (a.reports s h p) := by
  cases a with
  | report kind value place =>
    intro t
    rfl
  | absent h' below => exact h'.emits_checkAbsent _
  | visit n w below => exact hn n w below rfl

theorem Check.emits_direct (h : Heading) {c : Check} (hc : c.direct = true) (v : Json) (p : Site)
    (hn : ∀ n w below, .visit n w below ∈ c.actions v p.path →
      Emits (n.check s w (p.at below)) (n.reports s w (p.at below))) :
    Emits (c.check s h v p) ((c.actions v p.path).flatMap (Action.reports s h p)) := by
  have hs : Emits (fun t => (c.actions v p.path).foldl (fun t a => a.run s h p t) t)
      ((c.actions v p.path).flatMap (Action.reports s h p)) := by
    apply Emits.foldl
    intro a ha
    exact a.emits s h p fun n w below hv => hn n w below (hv ▸ ha)
  intro t
  rw [check_direct s h hc]
  exact hs t

theorem Node.emits_mk (h : Heading) (head tail : List Check) (v : Json) (p : Site)
    (hc : ∀ c ∈ head ++ tail, ∀ h, Emits (c.check s h v p) (c.reports s h v p)) :
    Emits ((mk h head tail).check s v p)
      (if h.acceptsType v then
        head.flatMap (fun c => c.reports s h v p) ++ h.missingReports v p ++
          if h.missing v = [] ∨ s.greedy = true then tail.flatMap fun c => c.reports s h v p
          else []
      else [violation h p.path .type (some v) (h.place "type")]) := by
  have hhead := Emits.foldl fun c hm => hc c (List.mem_append_left tail hm) h
  have htail := Emits.foldl fun c hm => hc c (List.mem_append_right head hm) h
  intro t
  rw [check]
  split
  · rw [Tally.reportAll_append, Tally.reportAll_append, ← hhead t, ← h.emits_reportMissing v p]
    split
    · exact htail _
    · rfl
  · rfl

/-- Every run adds its reports to the tally. -/
theorem emits_reports :
    (∀ n v p, Emits (Node.check s n v p) (n.reports s v p)) ∧
      ∀ c v p, ∀ h, Emits (Check.check s h c v p) (c.reports s h v p) := by
  apply s.run_induction
  · rintro ⟨h, head, tail⟩ v p hc
    exact (Node.emits_mk s h head tail v p hc).self
  · intro c v p here below target h
    cases c using Check.byKind with
    | reference text place => exact (Check.emits_reference s h text place v p).self
    | schemaFormat name =>
      exact (Check.emits_schemaFormat s h name v p fun n => target (.format name) n rfl).self
    | negation n place => exact (Check.emits_negation s h n place v p).self
    | anyOf ns place => exact (Check.emits_anyOf s h ns place v p).self
    | oneOf ns place => exact (Check.emits_oneOf s h ns place v p).self
    | direct c hc =>
      refine (Check.emits_direct s h hc v p fun n w seg ha => ?_).self
      rcases Check.mem_of_visit ha with ⟨rfl, rfl, hn⟩ | ⟨⟨seg, rfl⟩, hw, hn⟩
      · exact here n hn
      · exact below n hn w hw seg

variable (n : Node) (v : Json) (p : Site) (h : Heading)

/-- **A run adds its reports to the tally**, whatever the tally holds. -/
theorem Node.check_eq (t : Tally) : n.check s v p t = t.reportAll (n.reports s v p) :=
  (emits_reports s).1 n v p t

theorem Check.check_eq (c : Check) (t : Tally) :
    c.check s h v p t = t.reportAll (c.reports s h v p) :=
  (emits_reports s).2 c v p h t

/-! ## The reports of each kind of check -/

theorem Node.reports_mk (head tail : List Check) :
    (mk h head tail).reports s v p =
      if h.acceptsType v then
        head.flatMap (fun c => c.reports s h v p) ++ h.missingReports v p ++
          if h.missing v = [] ∨ s.greedy = true then tail.flatMap fun c => c.reports s h v p
          else []
      else [violation h p.path .type (some v) (h.place "type")] :=
  (emits_mk s h head tail v p fun c _ h t => c.check_eq s v p h t).records

theorem Check.reports_negation (place : Path) :
    (negation n place).reports s h v p = h.demandReports (!n.accepts s v p) .not v place p :=
  (emits_negation s h n place v p).records

theorem Check.reports_anyOf (ns : List Node) (place : Path) :
    (anyOf ns place).reports s h v p =
      h.demandReports (ns.any fun n => n.accepts s v p) .anyOf v place p :=
  (emits_anyOf s h ns place v p).records

theorem Check.reports_oneOf (ns : List Node) (place : Path) :
    (oneOf ns place).reports s h v p =
      h.demandReports (ns.countP (fun n => n.accepts s v p) == 1) .oneOf v place p :=
  (emits_oneOf s h ns place v p).records

theorem Check.reports_reference (text : String) (place : Path) :
    (reference text place).reports s h v p =
      h.demandReports (answers s (.reference text) v p) .reference v place p :=
  (emits_reference s h text place v p).records

theorem Check.reports_schemaFormat (name : String) :
    (schemaFormat name).reports s h v p =
      match s.subroutines.lookup (.format name) with
      | some n => if .format name ∈ p.entered then [] else n.reports s v (p.enter (.format name))
      | none => [] :=
  (emits_schemaFormat s h name v p fun n _ _ t => n.check_eq s v _ t).records

theorem Check.reports_direct {c : Check} (hc : c.direct = true) :
    c.reports s h v p = (c.actions v p.path).flatMap (Action.reports s h p) :=
  (emits_direct s h hc v p fun n w _ _ t => n.check_eq s w _ t).records

end Runs

end JsonSchema
