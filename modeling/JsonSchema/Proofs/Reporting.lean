import JsonSchema.Proofs.Changer
import JsonSchema.Proofs.Findings
import JsonSchema.Proofs.Unfilled

/-!
# Where mutating runs report

A mutating run of a node on a value reports violations of this value and of its parts. It never
says that the value itself is missing, which is up to the node that looks for the value.

* `Violation.Within`: violations of a value that is present, or of its parts;
* `reporting`: steps that leave the same and report the same from every tally;
* `Node.apply_reporting`: a mutating run of a node reports within its value.
-/

namespace JsonSchema

/-! ## Violations within a value -/

/-- A violation of the value at a path, which is present, or of a part of it. -/
structure Violation.Within (path : Path) (x : Violation) : Prop where
  below : path <+: x.path
  present : x.kind = .required → x.path ≠ path

namespace Violation

variable {path : Path} {x : Violation}

theorem within_of_part {seg : Segment} (h : path ++ [seg] <+: x.path) : x.Within path := by
  refine ⟨(List.prefix_append path [seg]).trans h, fun _ heq => ?_⟩
  have hlength := h.length_le
  rw [heq, List.length_append, List.length_singleton] at hlength
  omega

theorem within_of_kind (hpath : path <+: x.path) (hkind : x.kind ≠ .required) : x.Within path :=
  ⟨hpath, fun h => absurd h hkind⟩

end Violation

theorem Check.Finds.within {h : Heading} {v : Json} {path : Path} {c : Check} {x : Violation}
    (hx : c.Finds h v path x) : x.Within path := by
  have hpath : ∀ kind value place, path <+: (violation h path kind value place).path :=
    fun _ _ _ => List.prefix_refl path
  cases hx with
  | rule hfault => exact Violation.within_of_kind (hpath ..) (Rule.covers_of_fault? hfault).ne.1
  | dependency | closed => exact Violation.within_of_kind (hpath ..) (by simp [violation])
  | verdict hdemand =>
    refine Violation.within_of_kind (hpath ..) ?_
    rintro rfl
    cases c <;> simp [demand?] at hdemand
  | absent => exact Violation.within_of_part (List.prefix_refl _)

theorem Node.Finds.within {v : Json} {path : Path} {n : Node} {x : Violation}
    (hx : n.Finds v path x) : x.Within path := by
  cases hx with
  | type => exact Violation.within_of_kind (List.prefix_refl path) (by simp [violation])
  | missing => exact Violation.within_of_part (List.prefix_refl _)
  | check _ hx => exact hx.within

/-- What a node that a run comes to finds lies within the value of the run. -/
theorem Node.FoundFrom.within {s : Scope} {n : Node} {v : Json} {path : Path} {x : Violation}
    (hx : n.FoundFrom s v path x) : x.Within path := by
  obtain ⟨q, k, w, -, hfinds⟩ := hx
  cases q with
  | nil => simpa using hfinds.within
  | cons seg q =>
    have hpart : path ++ [seg] <+: path ++ seg :: q := ⟨q, by simp⟩
    exact Violation.within_of_part (hpart.trans hfinds.within.below)

/-! ## Steps and their reports -/

/-- Steps that leave the same from every tally, and report the same violations, each of which has
a certain property. -/
def reporting (P : Violation → Prop) : Alike (StateT Tally Option) (StateT Tally Option) where
  results := True
  rel f _ := ∀ t a t', f t = some (a, t') →
    ∃ vs, (∀ u, f u = some (a, u.reportAll vs)) ∧ ∀ x ∈ vs, P x
  pure := by
    intro α a b _ t c t' ht
    cases ht
    exact ⟨[], fun _ => rfl, List.forall_mem_nil _⟩
  bind := by
    intro α β x _ f g hx hf t b t' ht
    obtain ⟨⟨a, u⟩, ha, hb⟩ := Option.bind_eq_some_iff.mp ht
    obtain ⟨vs, hx, hvs⟩ := hx t a u ha
    obtain ⟨ws, hf, hws⟩ := hf a a (fun _ => rfl) u b t' hb
    refine ⟨vs ++ ws, fun u => ?_, List.forall_mem_append.2 ⟨hvs, hws⟩⟩
    rw [u.reportAll_append]
    show (x u >>= fun y => f y.1 y.2) = _
    rw [hx]
    exact hf _

section

variable {P Q : Violation → Prop}

theorem reporting_mono {α : Type} {f g : StateT Tally Option α} (hPQ : ∀ x, P x → Q x)
    (h : (reporting P).rel f g) : (reporting Q).rel f g := by
  intro t a t' ht
  obtain ⟨vs, hf, hvs⟩ := h t a t' ht
  exact ⟨vs, hf, fun x hx => hPQ x (hvs x hx)⟩

/-- A step that only looks at the value. -/
theorem reporting_look {f g : StateT Tally Option Unit} {vs : List Violation}
    (hf : ∀ t, f t = some ((), t.reportAll vs)) (hvs : ∀ x ∈ vs, P x) :
    (reporting P).rel f g := by
  intro t a t' ht
  cases (hf t).symm.trans ht
  exact ⟨vs, hf, hvs⟩

end

/-! ## Single reports -/

namespace Heading

variable (h : Heading) (p : Site)

theorem within_demand (holds : Bool) {kind : Violation.Kind} (hkind : kind ≠ .required) (v : Json)
    (place : Path) : ∀ x ∈ h.demandReports holds kind v place p, x.Within p.path := by
  rw [demandReports]
  split
  · exact List.forall_mem_nil _
  · exact List.forall_mem_singleton.2 (Violation.within_of_kind (List.prefix_refl _) hkind)

theorem within_absent (seg : Segment) : ∀ x ∈ h.absentReports (p.down seg), x.Within p.path := by
  rw [absentReports]
  split
  · exact List.forall_mem_singleton.2 (Violation.within_of_part (List.prefix_refl _))
  · exact List.forall_mem_nil _

theorem within_missing (v : Json) : ∀ x ∈ h.missingReports v p, x.Within p.path :=
  List.forall_mem_map.2 fun _ _ => Violation.within_of_part (List.prefix_refl _)

end Heading

/-! ## Checks -/

section Runs

variable {s : Scope} {m : Changes} {depth : Nat} {h : Heading} {p : Site} {c : Check}

/-- The reports of a check lie within its value: they are those of a node with this check alone. -/
theorem Check.within_reports (s : Scope) (h : Heading) (c : Check) (v : Json) (p : Site) :
    ∀ x ∈ c.reports s h v p, x.Within p.path := by
  intro x hx
  have hfound : (Node.mk h [c] []).FoundFrom s v p.path x :=
    foundFrom_of_reports List.mem_cons_self (fun _ _ _ _ _ hx => Node.exists_finds hx)
      (fun name _ _ _ _ _ hx => Node.exists_finds (p := p.enter (.format name)) hx) hx
  exact hfound.within

theorem Check.reporting_reference {text : String} {place : Path} (v : Json) :
    (reporting (Violation.Within p.path)).rel ((reference text place).apply s m depth h v p)
      ((reference text place).apply s m depth h v p) := by
  have happly := fun u => apply_reference (s := s) (m := m) (p := p) depth h text place v u
  intro t w t' ht
  rw [happly] at ht
  split at ht
  · next hk =>
    cases ht
    simp only [hk] at happly
    exact ⟨[], happly, List.forall_mem_nil _⟩
  · next k hk =>
    split at ht
    · next he =>
      cases ht
      simp only [hk, he, if_true] at happly
      exact ⟨[], happly, List.forall_mem_nil _⟩
    · next he =>
      obtain ⟨⟨x, inner⟩, hx, hw⟩ := Option.bind_eq_some_iff.mp ht
      cases hw
      simp only [hk, he, if_false, hx] at happly
      refine ⟨h.demandReports (inner.count == 0) .reference w place p, fun u => ?_,
        h.within_demand p _ (by simp) w place⟩
      rw [← h.emits_demand]
      exact happly u

theorem Check.reporting_schemaFormat {name : String}
    (target : ∀ k, s.subroutines.lookup (.format name) = some k → .format name ∉ p.entered → ∀ v,
      (reporting (Violation.Within p.path)).rel (k.apply s m depth v (p.enter (.format name)))
        (k.apply s m depth v (p.enter (.format name)))) (v : Json) :
    (reporting (Violation.Within p.path)).rel ((schemaFormat name).apply s m depth h v p)
      ((schemaFormat name).apply s m depth h v p) := by
  have happly := fun u => apply_schemaFormat (s := s) (m := m) (p := p) depth h name v u
  intro t w t' ht
  rw [happly] at ht
  split at ht
  · next hk =>
    cases ht
    simp only [hk] at happly
    exact ⟨[], happly, List.forall_mem_nil _⟩
  · next k hk =>
    split at ht
    · next he =>
      cases ht
      simp only [hk, he, if_true] at happly
      exact ⟨[], happly, List.forall_mem_nil _⟩
    · next he =>
      simp only [hk, he, if_false] at happly
      obtain ⟨vs, hrun, hvs⟩ := target k hk he v t w t' ht
      exact ⟨vs, fun u => (happly u).trans (hrun u), hvs⟩

/-! ## Nodes -/

/-- Mutating runs of nodes, and their steps at the parts of checks, report within the value. -/
theorem reporting_runs (s : Scope) (m : Changes) :
    (∀ (n : Node) depth (p : Site) v, (reporting (Violation.Within p.path)).rel
        (n.apply s m depth v p) (n.apply s m depth v p)) ∧
      ∀ (c : Check) depth (p : Site) h, (reporting (Violation.Within p.path)).Changers
        (Check.applying s m depth h p) (Check.applying s m depth h p) c := by
  apply s.level_induction
  · intro n depth p ih v
    rw [funext (n.apply_eq s m depth p v)]
    refine (reporting _).changing True.intro
      (fun c hc v => (ih c hc n.heading).check True.intro m v) (fun v => ?_) (fun v => ?_) v
    · exact reporting_look (fun t => congrArg (fun t => some ((), t))
        (n.heading.emits_reportMissing v p t)) (n.heading.within_missing p v)
    · exact reporting_look (fun t => rfl) (List.forall_mem_singleton.2
        (Violation.within_of_kind (List.prefix_refl _) (by simp [violation])))
  · intro c depth p here below target h
    constructor
    case here => exact fun k hk v => here k hk.mem_here v
    case below =>
      intro k seg hk v
      cases depth with
      | zero =>
        intro t w t' ht
        cases ht
      | succ depth =>
        exact reporting_mono (fun x hx => Violation.within_of_part hx.below)
          (below k hk.mem_below depth (Nat.lt_succ_self _) seg v)
    case reference =>
      rintro text place rfl v
      exact Check.reporting_reference v
    case schemaFormat =>
      rintro name rfl v
      exact Check.reporting_schemaFormat (fun k hk he v => target _ k rfl hk he v) v
    case look =>
      intro v
      exact reporting_look (fun t => congrArg (fun t => some ((), t)) (c.check_eq s v p h t))
        (c.within_reports s h v p)
    case names =>
      intro names place v
      have hkind : Violation.Kind.dependencies ≠ .required := by simp
      refine reporting_look (fun t => ?_) (h.within_demand p
        (names.all fun name => (v.get? name).isSome) hkind v place)
      show some ((), (Dependency.names names place).check s h v p t) = _
      rw [Dependency.check]
      exact congrArg (fun t => some ((), t)) (h.emits_demand _ .dependencies v place p t)
    case absent =>
      intro k seg
      exact reporting_look (fun t => congrArg (fun t => some ((), t))
        (k.emits_checkAbsent (p.down seg) t)) (k.within_absent p seg)
    case down =>
      cases depth with
      | zero =>
        intro t w t' ht
        cases ht
      | succ depth => exact (reporting _).same ()

/-- **A mutating run of a node reports within its value**, and it leaves the same and reports the
same from every tally. -/
theorem Node.apply_reporting (s : Scope) (m : Changes) (n : Node) (depth : Nat) (p : Site)
    (v : Json) :
    (reporting (Violation.Within p.path)).rel (n.apply s m depth v p) (n.apply s m depth v p) :=
  (reporting_runs s m).1 n depth p v

end Runs

end JsonSchema
