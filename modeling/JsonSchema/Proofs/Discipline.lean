import JsonSchema.Proofs.OneGuardChange
import JsonSchema.Proofs.Steady

/-!
# What a run leaves behind

Every run that ends, of any node on any value from any state, leaves the state as it found it but
for a number of violations that it counted, and for their records where the state records and is
not suspended. The number does not depend on the state, as far as it is not about the targets that
are active at the value and below, nor on where the value is.

* `Tally.Grows`: a tally that has only grown;
* `Node.RunAdds`, `Node.ChangeAdds`: what a run adds, from every state and under a probe;
* `Node.keeps_state`: every run does so, and it adds what the node reports.
-/

namespace JsonSchema

open GuardedRun (Grows step probing)

/-- A tally has counted `n` more violations and kept them if it records. -/
structure Tally.Grows (t t' : Tally) (n : Nat) : Prop where
  recording : t'.recording = t.recording
  count : t'.count = t.count + n
  records : ∃ ws, t'.records = t.records ++ ws ∧
    ws.length = if t.recording ≠ .off then n else 0

theorem Tally.grows_reportAll (t : Tally) (vs : List Violation) :
    t.Grows (t.reportAll vs) vs.length :=
  ⟨t.recording_reportAll vs, t.count_reportAll vs, _, t.records_reportAll vs,
    length_keep t.recording vs⟩

/-- Steps that follow one another from every state add the same number to all of them. -/
theorem count_of_follows {α : Type} {f : Nat → Path → StateT GuardedRun Option α} {budget : Nat}
    {path : Path} {r r' : GuardedRun} {a : α}
    (hf : ∀ budget₂, budget ≤ budget₂ → ∀ A₂ path₂, Moved r.active path A₂ path₂ →
      (follows r.active A₂).rel (f budget path) (f budget₂ path₂))
    (h : f budget path r = some (a, r')) :
    ∃ count, r.Grows r' count ∧ ∀ budget₂ path₂ (r₂ : GuardedRun), budget ≤ budget₂ →
      Moved r.active path r₂.active path₂ →
        ∃ r₂', f budget₂ path₂ r₂ = some (a, r₂') ∧ r₂.Grows r₂' count := by
  obtain ⟨count, -, hgrows, -, -⟩ :=
    hf budget (Nat.le_refl _) r.active path (.refl _ _) r r rfl rfl a r' h
  refine ⟨count, hgrows, fun budget₂ path₂ r₂ hb hA => ?_⟩
  obtain ⟨k, r₂', hk, h₂, hr₂⟩ := hf budget₂ hb r₂.active path₂ hA r r₂ rfl rfl a r' h
  have hcount : k = count := by
    have := hk.count.symm.trans hgrows.count
    omega
  exact ⟨r₂', h₂, hcount ▸ hr₂⟩

namespace Node

variable (s : Scope) (m : Changes) (n : Node) (v w : Json) (budget : Nat) (path : Path)
  (r r' : GuardedRun) (count : Nat)

/-- What a run of a node adds to a state. -/
structure RunAdds : Prop where
  /-- The state has counted `count` more violations, and nothing else has changed. -/
  grows : r.Grows r' count
  /-- From any other state, and at any other place of the value, the run adds as much. -/
  anywhere : ∀ budget₂ path₂ (r₂ : GuardedRun), budget ≤ budget₂ →
    Moved r.active path r₂.active path₂ →
      ∃ r₂', n.run s budget₂ v path₂ r₂ = some r₂' ∧ r₂.Grows r₂' count
  /-- A probe resumes a state that it has suspended itself, and tells whether nothing was added.
  Nothing is left of what was. -/
  probed : ∃ mid, n.run s budget v path r.suspend = some mid ∧ mid.suspended = r.suspended + 1 ∧
    r.probe (n.run s budget v path) = some (decide (count = 0), mid.rewind r) ∧
      r.Grows (mid.rewind r) 0

/-- What a run of a node that leaves the value `w` adds to a state. -/
structure ChangeAdds : Prop where
  grows : r.Grows r' count
  /-- From any other state, and at any other place of the value, the run adds as much and leaves
  the same value. -/
  anywhere : ∀ budget₂ path₂ (r₂ : GuardedRun), budget ≤ budget₂ →
    Moved r.active path r₂.active path₂ →
      ∃ r₂', n.change s m budget₂ v path₂ r₂ = some (w, r₂') ∧ r₂.Grows r₂' count
  probed : ∃ mid, n.change s m budget v path r.suspend = some (w, mid) ∧
    mid.suspended = r.suspended + 1 ∧
      r.probeChange (n.change s m budget v path) = some (decide (count = 0), w, mid.rewind r) ∧
        r.Grows (mid.rewind r) 0

variable {s m n v w budget path r r'}

theorem run_adds (h : n.run s budget v path r = some r') :
    ∃ count, n.RunAdds s v budget path r r' count := by
  have hstep : ∀ b p q, step (n.run s b v p) q = (n.run s b v p q).map fun q' => ((), q') := by
    intro b p q
    show (n.run s b v p q >>= fun q' => some ((), q')) = _
    cases n.run s b v p q <;> rfl
  obtain ⟨count, hgrows, hany⟩ := count_of_follows (f := fun b p => step (n.run s b v p))
    (fun b hb A p hA => n.run_follows s budget b hb _ A path p v hA) (r := r) (a := ())
    (by rw [hstep, h]; rfl)
  have hanywhere : ∀ budget₂ path₂ (r₂ : GuardedRun), budget ≤ budget₂ →
      Moved r.active path r₂.active path₂ →
        ∃ r₂', n.run s budget₂ v path₂ r₂ = some r₂' ∧ r₂.Grows r₂' count := by
    intro budget₂ path₂ r₂ hb hA
    obtain ⟨r₂', h₂, hr₂⟩ := hany budget₂ path₂ r₂ hb hA
    rw [hstep] at h₂
    obtain ⟨q, hq, heq⟩ := Option.map_eq_some_iff.mp h₂
    cases heq
    exact ⟨_, hq, hr₂⟩
  obtain ⟨mid, hmid, hr⟩ := hanywhere budget path r.suspend (Nat.le_refl _) (.refl _ _)
  refine ⟨count, hgrows, hanywhere, mid, hmid, hr.suspended, ?_, hr.rewind⟩
  have hquiet : mid.quietSince r = decide (count = 0) := hr.quietSince_suspend
  rw [GuardedRun.probe, hmid, ← hquiet]
  rfl

theorem change_adds (h : n.change s m budget v path r = some (w, r')) :
    ∃ count, n.ChangeAdds s m v w budget path r r' count := by
  obtain ⟨count, hgrows, hanywhere⟩ := count_of_follows (f := fun b p => n.change s m b v p)
    (fun b hb A p hA => n.change_follows s m budget b hb _ A path p v hA) h
  obtain ⟨mid, hmid, hr⟩ := hanywhere budget path r.suspend (Nat.le_refl _) (.refl _ _)
  refine ⟨count, hgrows, hanywhere, mid, hmid, hr.suspended, ?_, hr.rewind⟩
  have hquiet : mid.quietSince r = decide (count = 0) := hr.quietSince_suspend
  rw [GuardedRun.probeChange, hmid, ← hquiet]
  rfl

/-- **Every run that ends keeps the state**, whether it changes the value or not: it adds to the
state what it adds to every other one. From states whose active targets belong to a site, the run
on one guard adds as many reports as the run at the site, and leaves the same value. -/
theorem keeps_state (s : Scope) (n : Node) (v : Json) :
    (∀ budget path r r', n.run s budget v path r = some r' →
      ∃ count, n.RunAdds s v budget path r r' count) ∧
    (∀ m budget path r w r', n.change s m budget v path r = some (w, r') →
      ∃ count, n.ChangeAdds s m v w budget path r r' count) ∧
    (∀ (p : Site) (r : GuardedRun), p.Guards r.active → s.Sound r.active →
      ∃ budget r' count, n.run s budget v p.path r = some r' ∧ r.Grows r' count ∧
        ∀ t : Tally, t.Grows (n.check s v p t) count) ∧
    ∀ m depth (p : Site) t w t' (r : GuardedRun), n.apply s m depth v p t = some (w, t') →
      p.Guards r.active → s.Sound r.active →
        ∃ budget r' count, n.change s m budget v p.path r = some (w, r') ∧ r.Grows r' count ∧
          ∀ u : Tally, ∃ u', n.apply s m depth v p u = some (w, u') ∧ u.Grows u' count := by
  refine ⟨fun _ _ _ _ => run_adds, fun _ _ _ _ _ _ => change_adds, fun p r hA hs => ?_,
    fun m depth p t w t' r h hA hs => ?_⟩
  · obtain ⟨es, hrun, -⟩ := n.run_performs s v p r.active _ r.declaredType hA hs (Nat.le_refl _) r
      rfl rfl
    refine ⟨_, _, _, hrun, r.grows_after _ es, fun t => ?_⟩
    rw [n.check_eq]
    exact t.grows_reportAll _
  · obtain ⟨vs, enough, happly, hchange⟩ := n.realized s m depth p r.active hA hs v t w t' h
    obtain ⟨es, hrun, -⟩ := hchange enough (Nat.le_refl _) r rfl
    exact ⟨enough, _, _, hrun, r.grows_after vs es,
      fun u => ⟨_, happly u, u.grows_reportAll vs⟩⟩

/-- A node with a default that no value matches. -/
def unmatched : Node :=
  .mk { location := [], default := some .null } [] [.negation (.trivial []) []]

/-- Objects that have their member filled in. -/
def filled : Node := .mk { location := [] } [] [.properties [("a", unmatched)] false]

theorem filled_run : filled.run ⟨[], false⟩ 0 (.object []) [] { tally := .start .off } =
    some { tally := .start .off } := by
  simp only [filled, unmatched, run, Check.run, Check.actions, List.foldlM_cons, List.foldlM_nil,
    Option.pure_def, Option.bind_eq_bind, Option.bind_some]
  rfl

theorem filled_change : filled.change ⟨[], false⟩ ⟨false, true⟩ 0 (.object []) []
    { tally := .start .off } = some (.object [("a", .null)],
      { tally := ⟨.off, 1, []⟩
        log := [.nested filled unmatched, .nested unmatched (.trivial [])] }) := by
  simp only [filled, unmatched, change, Check.change, run, Check.run, Node.trivial,
    GuardedRun.probe, List.foldlM_cons, List.foldlM_nil, Option.pure_def, Option.bind_eq_bind,
    Option.bind_some]
  rfl

theorem filled_apply : filled.apply ⟨[], false⟩ ⟨false, true⟩ 1 (.object []) {} (.start .off) =
    some (.object [("a", .null)], ⟨.off, 1, []⟩) := by
  simp only [filled, unmatched, apply, Check.apply, Node.trivial, Check.check, check,
    List.foldlM_cons, List.foldlM_nil, Option.pure_def, Option.bind_eq_bind, Option.bind_some]
  rfl

theorem keeps_state_filled :
    (∃ r', filled.run ⟨[], false⟩ 0 (.object []) [] { tally := .start .off } = some r' ∧
      ∃ count, filled.RunAdds ⟨[], false⟩ (.object []) 0 [] { tally := .start .off } r' count) ∧
    (∃ w r', filled.change ⟨[], false⟩ ⟨false, true⟩ 0 (.object []) []
        { tally := .start .off } = some (w, r') ∧
      ∃ count, filled.ChangeAdds ⟨[], false⟩ ⟨false, true⟩ (.object []) w 0 []
        { tally := .start .off } r' count) ∧
    (∃ budget r' count, filled.run ⟨[], false⟩ budget (.object []) []
        { tally := .start .off } = some r' ∧
      GuardedRun.Grows { tally := .start .off } r' count ∧
        ∀ t : Tally, t.Grows (filled.check ⟨[], false⟩ (.object []) {} t) count) ∧
    ∃ w budget r' count, filled.change ⟨[], false⟩ ⟨false, true⟩ budget (.object []) []
        { tally := .start .off } = some (w, r') ∧
      GuardedRun.Grows { tally := .start .off } r' count ∧
        ∀ u : Tally, ∃ u', filled.apply ⟨[], false⟩ ⟨false, true⟩ 1 (.object []) {} u =
          some (w, u') ∧ u.Grows u' count := by
  obtain ⟨hrun, hchange, hcheck, happly⟩ := keeps_state ⟨[], false⟩ filled (.object [])
  exact ⟨⟨_, filled_run, hrun _ _ _ _ filled_run⟩,
    ⟨_, _, filled_change, hchange _ _ _ _ _ _ filled_change⟩,
    hcheck {} { tally := .start .off } .start .start,
    ⟨_, happly _ 1 {} _ _ _ { tally := .start .off } filled_apply .start .start⟩⟩

end Node

end JsonSchema
