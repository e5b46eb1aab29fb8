import JsonSchema.Proofs.Filtered
import JsonSchema.Proofs.Findings
import JsonSchema.Proofs.Origins
import JsonSchema.Proofs.Resting

/-!
# Filtering

With filtering on, a mutating run removes the members that closed nodes reject, and it reports none
of them. If no default is filled in, what it leaves is left alone by every later run.

* `Spares`: no violation is one of additional properties;
* `Node.apply_spares`: a filtering run reports no additional properties;
* `Validator.validateMut_again`: a second run on what a run leaves is the run that only looks at it;
* `Validator.validate_of_unchanged`: a run that leaves the value as it is has the right result;
* `Validator.filters`: filtering is complete, and doing it twice is doing it once.
-/

namespace JsonSchema

/-! ## What a filtering run reports -/

def Spares (vs : List Violation) : Prop := ∀ x ∈ vs, x.kind ≠ .additionalProperties

theorem Spares.append {vs ws : List Violation} (hv : Spares vs) (hw : Spares ws) :
    Spares (vs ++ ws) :=
  fun x hx => (List.mem_append.1 hx).elim (hv x) (hw x)

/-- Steps that report no additional properties. -/
def sparing : Alike (StateT Tally Option) (StateT Tally Option) where
  results := True
  rel f _ := ∀ t a t', f t = some (a, t') → ∃ vs, t' = t.reportAll vs ∧ Spares vs
  pure := by
    intro α a b _ t c t' ht
    cases ht
    exact ⟨[], rfl, List.forall_mem_nil _⟩
  bind := by
    intro α β x _ f g hx hf t b t' ht
    obtain ⟨⟨a, u⟩, ha, hb⟩ := Option.bind_eq_some_iff.mp ht
    obtain ⟨vs, rfl, hvs⟩ := hx t a u ha
    obtain ⟨ws, rfl, hws⟩ := hf a a (fun _ => rfl) _ b t' hb
    exact ⟨vs ++ ws, (t.reportAll_append vs ws).symm, hvs.append hws⟩

/-- A step that adds certain reports. -/
theorem sparing_reports {f g : StateT Tally Option Unit} {vs : List Violation}
    (hf : ∀ t, f t = some ((), t.reportAll vs)) (hvs : Spares vs) : sparing.rel f g := by
  intro t a t' ht
  cases (hf t).symm.trans ht
  exact ⟨vs, rfl, hvs⟩

/-! ### Single reports -/

theorem Heading.spares_violation (h : Heading) (path : Path) {kind : Violation.Kind}
    (hkind : kind ≠ .additionalProperties) (value : Option Json) (place : Path) :
    Spares [violation h path kind value place] :=
  List.forall_mem_singleton.2 hkind

theorem Heading.spares_demand (h : Heading) (holds : Bool) {kind : Violation.Kind}
    (hkind : kind ≠ .additionalProperties) (v : Json) (place : Path) (p : Site) :
    Spares (h.demandReports holds kind v place p) := by
  rw [demandReports]
  split
  · exact List.forall_mem_nil _
  · exact h.spares_violation p.path hkind (some v) place

theorem Heading.spares_absent (h : Heading) (p : Site) : Spares (h.absentReports p) := by
  rw [absentReports]
  split
  · exact h.spares_violation p.path (by simp) none _
  · exact List.forall_mem_nil _

theorem Heading.spares_missing (h : Heading) (v : Json) (p : Site) :
    Spares (h.missingReports v p) := by
  have hrequired : Violation.Kind.required ≠ .additionalProperties := by simp
  exact List.forall_mem_map.2 fun _ _ => hrequired

/-! ### Checks -/

section

variable {s : Scope} {m : Changes} {depth : Nat} {h : Heading} {p : Site} {c : Check}

/-- The steps of a mutating run that drops the reports of additional properties where a check only
looks at the value. -/
def Check.sparingChanger (s : Scope) (m : Changes) (depth : Nat) (h : Heading) (p : Site) :
    Changer (StateT Tally Option) :=
  { applying s m depth h p with
    look := fun c v t => some ((), t.reportAll
      ((c.reports s h v p).filter fun x => x.kind ≠ .additionalProperties)) }

theorem Check.sparing_look {v : Json} (hspares : Spares (c.reports s h v p)) :
    (applying s m depth h p).look c v = (sparingChanger s m depth h p).look c v := by
  have hfilter : (c.reports s h v p).filter (fun x => x.kind ≠ .additionalProperties) =
      c.reports s h v p := List.filter_eq_self.2 fun x hx => by simpa using hspares x hx
  funext t
  show some ((), c.check s h v p t) = _
  rw [check_eq, ← hfilter]
  rfl

theorem Check.spares_properties {entries : List (String × Node)} {skipNull : Bool} {v : Json}
    (hv : ∀ ms, v ≠ .object ms) : Spares ((properties entries skipNull).reports s h v p) := by
  rw [reports_direct s v p h rfl]
  have habsent : ∀ ks : List (String × Node),
      Spares ((ks.map fun e => Action.absent e.2.heading (.name e.1)).flatMap
        (Action.reports s h p)) := by
    intro ks x hx
    obtain ⟨a, ha, hx⟩ := List.mem_flatMap.1 hx
    obtain ⟨e, -, rfl⟩ := List.mem_map.1 ha
    exact e.2.heading.spares_absent _ x hx
  cases v with
  | object ms => exact absurd rfl (hv ms)
  | null =>
    cases skipNull with
    | true => exact List.forall_mem_nil _
    | false => exact habsent entries
  | _ => exact habsent entries

/-- Where a filtering run looks at a value, there are no additional properties to report. -/
theorem Check.applying_eq_sparing (hf : m.filter = true) (v : Json) :
    (applying s m depth h p).check m c v = (sparingChanger s m depth h p).check m c v := by
  have hlook : ∀ {c : Check} {v : Json}, Spares (c.reports s h v p) →
      (applying s m depth h p).looking c v = (sparingChanger s m depth h p).looking c v :=
    fun hspares => congrArg (· >>= fun _ => pure _) (sparing_look hspares)
  cases c with
  | rule r place =>
    refine hlook fun x hx => ?_
    rw [reports_direct s v p h rfl] at hx
    obtain ⟨a, ha, hx⟩ := List.mem_flatMap.1 hx
    obtain ⟨kind, hkind, rfl⟩ := List.mem_map.1 ha
    rw [List.mem_singleton.1 hx]
    rintro rfl
    exact (Rule.covers_of_fault? (Option.mem_toList.1 hkind)).ne.2 rfl
  | negation n place =>
    refine hlook ?_
    rw [reports_negation]
    exact h.spares_demand _ (by simp) v place p
  | anyOf ns place =>
    refine hlook ?_
    rw [reports_anyOf]
    exact h.spares_demand _ (by simp) v place p
  | oneOf ns place =>
    refine hlook ?_
    rw [reports_oneOf]
    exact h.spares_demand _ (by simp) v place p
  | closed declared place =>
    cases v with
    | object ms => simp only [Changer.check, hf]
    | _ =>
      have hdirect : (Check.closed declared place).direct = true := rfl
      refine hlook ?_
      rw [reports_direct s _ p h hdirect]
      exact List.forall_mem_nil _
  | properties entries skipNull =>
    cases v with
    | object ms => rfl
    | _ => exact hlook (spares_properties (by simp))
  | _ => rfl

theorem Check.spares_reference {text : String} {place : Path} (v : Json) :
    sparing.rel ((reference text place).apply s m depth h v p)
      ((reference text place).apply s m depth h v p) := by
  intro t w t' ht
  rw [apply_reference] at ht
  split at ht
  · cases ht
    exact ⟨[], rfl, List.forall_mem_nil _⟩
  · split at ht
    · cases ht
      exact ⟨[], rfl, List.forall_mem_nil _⟩
    · obtain ⟨⟨x, inner⟩, -, hw⟩ := Option.bind_eq_some_iff.mp ht
      cases hw
      exact ⟨_, h.emits_demand _ .reference w place p t, h.spares_demand _ (by simp) w place p⟩

theorem Check.spares_schemaFormat {name : String}
    (target : ∀ k, s.subroutines.lookup (.format name) = some k → .format name ∉ p.entered →
      ∀ v, sparing.rel (k.apply s m depth v (p.enter (.format name)))
        (k.apply s m depth v (p.enter (.format name)))) (v : Json) :
    sparing.rel ((schemaFormat name).apply s m depth h v p)
      ((schemaFormat name).apply s m depth h v p) := by
  intro t w t' ht
  rw [apply_schemaFormat] at ht
  split at ht
  · cases ht
    exact ⟨[], rfl, List.forall_mem_nil _⟩
  · next k hk =>
    split at ht
    · cases ht
      exact ⟨[], rfl, List.forall_mem_nil _⟩
    · next he => exact target k hk he v t w t' ht

end

/-! ### Nodes -/

/-- **A filtering run reports no additional properties.** -/
theorem Node.apply_spares (s : Scope) {m : Changes} (hf : m.filter = true) (n : Node) (depth : Nat)
    (p : Site) (v : Json) : sparing.rel (n.apply s m depth v p) (n.apply s m depth v p) := by
  have key : (∀ (n : Node) depth p v,
        sparing.rel (n.apply s m depth v p) (n.apply s m depth v p)) ∧
      ∀ (c : Check) depth p h, sparing.Changers (Check.sparingChanger s m depth h p)
        (Check.sparingChanger s m depth h p) c := by
    apply s.level_induction
    · intro n depth p ih v
      rw [funext (n.apply_eq s m depth p v)]
      refine sparing.changing True.intro (fun c hc v => ?_) (fun v => ?_) (fun v => ?_) v
      · rw [Check.applying_eq_sparing hf]
        exact (ih c hc n.heading).check True.intro m v
      · exact sparing_reports (fun t => congrArg (fun t => some ((), t))
          (n.heading.emits_reportMissing v p t)) (n.heading.spares_missing v p)
      · exact sparing_reports (fun t => rfl) (n.heading.spares_violation p.path (by simp) _ _)
    · intro c depth p here below target h
      constructor
      case here => exact fun k hk v => here k hk.mem_here v
      case below =>
        intro k seg hk v
        cases depth with
        | zero =>
          intro t w t' ht
          cases ht
        | succ depth => exact below k hk.mem_below depth (Nat.lt_succ_self _) seg v
      case reference =>
        rintro text place rfl v
        exact Check.spares_reference v
      case schemaFormat =>
        rintro name rfl v
        exact Check.spares_schemaFormat (fun k hk he v => target _ k rfl hk he v) v
      case look =>
        intro v
        exact sparing_reports (fun t => rfl) fun x hx => by simpa using (List.mem_filter.1 hx).2
      case names =>
        intro names place v
        have hspares : Spares (h.demandReports (names.all fun name => (v.get? name).isSome)
          .dependencies v place p) := h.spares_demand _ (by simp) v place p
        refine sparing_reports (fun t => ?_) hspares
        show some ((), (Dependency.names names place).check s h v p t) = _
        rw [Dependency.check]
        exact congrArg (fun t => some ((), t)) (h.emits_demand _ .dependencies v place p t)
      case absent =>
        intro k seg
        exact sparing_reports (fun t => congrArg (fun t => some ((), t))
          (k.emits_checkAbsent (p.down seg) t)) (k.spares_absent _)
      case down =>
        cases depth with
        | zero =>
          intro t w t' ht
          cases ht
        | succ depth => exact sparing.same ()
  exact key.1 n depth p v

/-! ## Validators -/

namespace Validator

/-- A mutating run that fills in nothing has a result. -/
theorem exists_validateMut {w : Validator} (hw : w.FillsNothing) (v : Json) :
    ∃ r v', w.validateMut v = some (r, v') := by
  obtain ⟨hroot, htable⟩ := hw.unfilled
  obtain ⟨v', vs, -, happly, -⟩ :=
    Node.alters w.scope w.changes htable w.root v.height {} hroot [] _ (w.depth v) none
      Site.Guards.start Scope.Sound.start (Scope.budget_le v.height_pos {})
      (w.height_le_depth v) v (Nat.le_refl _)
  have hrun : w.root.apply w.scope w.changes (w.depth v) v {} (Tally.start w.recording) = _ :=
    happly _
  refine ⟨verdict ((Tally.start w.recording).reportAll vs), v', ?_⟩
  rw [validateMut, validateMutWithin, hrun]
  rfl

/-- What a mutating run leaves, it leaves alone. -/
theorem root_still {w : Validator} (hw : w.FillsNothing) {v v' : Json} (hd : v.distinct)
    {r : Except (List Violation) Unit} (h : w.validateMut v = some (r, v')) :
    v'.distinct ∧ w.root.Still w.scope w.changes v' {} := by
  obtain ⟨hroot, htable⟩ := hw.unfilled
  obtain ⟨⟨x, t⟩, hrun, hx⟩ := Option.bind_eq_some_iff.1 h
  cases hx
  exact ⟨(Node.apply_trims htable hroot v _ _ _ hrun).distinct hd,
    Node.apply_still htable hroot hd _ _ _ hrun⟩

/-- **A second run** on what a mutating run that fills in nothing has left is the run that only
looks at it. -/
theorem validateMut_again {w : Validator} (hw : w.FillsNothing) {v v' : Json} (hd : v.distinct)
    {r : Except (List Violation) Unit} (h : w.validateMut v = some (r, v')) :
    w.validateMut v' = some (w.validate v', v') := by
  obtain ⟨hd', hstill⟩ := root_still hw hd h
  exact validateMut_of_still hw hd' hstill

/-- So is a second run on what is left of a value that was read. -/
theorem validateMut_again_of_isRead {w : Validator} (hw : w.FillsNothing) {v v' : Json}
    (hv : v.IsRead) {r : Except (List Violation) Unit} (h : w.validateMut v = some (r, v')) :
    w.validateMut v' = some (w.validate v', v') :=
  validateMut_again hw hv.distinct h

/-- **A run that leaves the value as it is** and fills in nothing has the result of the run that
only looks at the value. -/
theorem validate_of_unchanged {w : Validator} (hw : w.FillsNothing) {v : Json} (hd : v.distinct)
    {r : Except (List Violation) Unit} (h : w.validateMut v = some (r, v)) : w.validate v = r := by
  cases h.symm.trans (validateMut_again hw hd h)
  rfl

/-- The violations of a result are reports of the run. -/
theorem exists_of_verdict {recording : Recording} {vs ws : List Violation}
    (h : verdict ((Tally.start recording).reportAll vs) = .error ws) {x : Violation} (hx : x ∈ ws) :
    ∃ y ∈ vs, x.kind = y.kind ∧ x.path = y.path := by
  rw [verdict] at h
  split at h
  · cases h
  · cases h
    rw [Tally.records_reportAll] at hx
    obtain ⟨y, hy, hx⟩ := List.mem_flatMap.1 ((List.mem_append.1 hx).resolve_left List.not_mem_nil)
    refine ⟨y, hy, ?_⟩
    cases recording with
    | off => cases hx
    | brief => rw [List.mem_singleton.1 hx]; exact ⟨rfl, rfl⟩
    | verbose => rw [List.mem_singleton.1 hx]; exact ⟨rfl, rfl⟩

/-- The violations of a result are none of additional properties. -/
def SparesResult (r : Except (List Violation) Unit) : Prop := ∀ vs, r = .error vs → Spares vs

theorem spares_verdict {recording : Recording} {vs : List Violation} (h : Spares vs) :
    SparesResult (verdict ((Tally.start recording).reportAll vs)) := by
  intro ws hws x hx
  obtain ⟨y, hy, hkind, -⟩ := exists_of_verdict hws hx
  rw [hkind]
  exact h y hy

theorem validateMut_spares {w : Validator} (hf : w.options.filter = true) {v v' : Json}
    {r : Except (List Violation) Unit} (h : w.validateMut v = some (r, v')) : SparesResult r := by
  obtain ⟨⟨x, t⟩, hrun, hx⟩ := Option.bind_eq_some_iff.1 h
  cases hx
  obtain ⟨vs, rfl, hvs⟩ := Node.apply_spares w.scope hf w.root _ _ _ _ _ _ hrun
  exact spares_verdict hvs

/-- **Filtering is complete, and doing it twice is doing it once.** Where no schema object that is
reached has a default, a filtering run on any value ends with a value, and it reports no additional
properties. On what it has left neither a run that only looks nor a second filtering run reports
any, and the second run leaves it as it is. -/
theorem filters {o : Options} {schema : Json} {w : Validator} (hbuild : o.build schema = .ok w)
    (hfilter : o.filter = true) (hdefaults : NoDefaults schema o) {v : Json} (hd : v.distinct) :
    ∃ r v', w.validateMut v = some (r, v') ∧ SparesResult r ∧ SparesResult (w.validate v') ∧
      w.validateMut v' = some (w.validate v', v') := by
  have hw := hdefaults.fillsNothing hbuild
  obtain ⟨r, v', hrun⟩ := exists_validateMut hw v
  have hagain := validateMut_again hw hd hrun
  obtain ⟨-, -, rfl⟩ := Options.build_eq_ok.1 hbuild
  exact ⟨r, v', hrun, validateMut_spares hfilter hrun, validateMut_spares hfilter hagain, hagain⟩

/-- Objects whose only member, if any, is such an object again. -/
def chain : Json := .object
  [("properties", .object [("next", .object [("$ref", .string "#")])]),
    ("additionalProperties", .bool false)]

/-- A chain of two objects, both with a member that `chain` rejects. -/
def chained : Json := .object
  [("a", .null), ("next", .object [("b", .null), ("next", .object [])])]

theorem filters_chain :
    ∃ w, Options.build { filter := true } chain = .ok w ∧
      (w.validateMut chained).map Prod.snd =
        some (.object [("next", .object [("next", .object [])])]) ∧
        ∃ r v', w.validateMut chained = some (r, v') ∧ SparesResult r ∧
          SparesResult (w.validate v') ∧ w.validateMut v' = some (w.validate v', v') := by
  have hrun : ((Options.build { filter := true } chain).toOption.map fun w =>
      (w.validateMut chained).map Prod.snd) =
        some (some (.object [("next", .object [("next", .object [])])])) := by decide +kernel
  have hdefaults : NoDefaults chain { filter := true } :=
    .of_documents (List.forall_mem_singleton.2 (by decide))
  obtain ⟨w, hbuild, hw⟩ := Options.build_of_run hrun
  exact ⟨w, hbuild, hw, filters hbuild rfl hdefaults (by decide)⟩

end Validator

end JsonSchema
