import JsonSchema.Proofs.Alters
import JsonSchema.Proofs.OneGuard

/-!
# Mutating runs that fill in nothing

A mutating run that fills in no default goes no further down than the value does. So it ends within
the levels of the value, and it ends just so on one guard for the whole run.

* `Node.Unfilled`: no default of the node is ever filled in;
* `Event.Safe`: the bounds that the events of a run keep;
* `Node.alters`: a mutating run and its guarded counterpart change a value alike.
-/

namespace JsonSchema

/-- No heading in the node has a default that would be filled in. -/
def Node.Unfilled (m : Changes) (n : Node) : Prop :=
  ∀ k : Node, k.Within n → k.heading.filling? m = none

theorem Node.Unfilled.heading {m : Changes} {n : Node} (h : n.Unfilled m) :
    n.heading.filling? m = none :=
  h n .refl

theorem Node.Unfilled.nested {m : Changes} {n : Node} (h : n.Unfilled m) {c : Check}
    (hc : c ∈ n.checks) {k : Node} (hk : k ∈ c.nodes) : k.Unfilled m :=
  fun j hj => h j (.step hc hk hj)

/-- The active targets are distinct and compiled, and nested nodes are parts of their parents. -/
def Event.Safe (s : Scope) : Event → Prop
  | .question q => s.Sound q.opened
  | .nested parent child => child.PartOf parent

theorem Question.Fits.opened {q : Question} {s : Scope} {p : Site} (h : q.Fits s p) :
    s.Sound q.opened := by
  rw [Question.opened, h.entered]
  by_cases he : q.target ∈ p.entered
  · simp only [he, not_true_eq_false, decide_false, Bool.false_eq_true, if_false]
    exact h.sound
  · obtain ⟨n, hn⟩ := Option.isSome_iff_exists.mp h.compiled
    simp only [he, not_false_eq_true, decide_true, if_true]
    refine h.sound.enter hn fun hmem => he ?_
    rw [h.path] at hmem
    exact (h.guards.mem_iff _).mp hmem

theorem Node.Notes.safe {s : Scope} {n : Node} {v : Json} {p : Site} {e : Event}
    (h : n.Notes s v p e) : e.Safe s := by
  cases e with
  | question q =>
    obtain ⟨p', hq, -⟩ := h
    exact hq.opened
  | nested => exact h

/-! ## The guard around a change -/

section Guard

variable {r : GuardedRun} {k : Target} {path : Path} {v w : Json}
  {body : GuardedRun → Option (Bool × Json × GuardedRun)}

theorem guardedChange_of_mem (hk : (k, path) ∈ r.active) :
    r.guardedChange k path v body =
      some (true, v, r.after [] [.question ⟨k, path, v, r.active, false, true⟩]) := by
  rw [GuardedRun.guardedChange, if_pos hk, r.note_eq]

theorem guardedChange_of_not_mem {passed : Bool} {vs : List Violation} {es : List Event}
    (hk : (k, path) ∉ r.active)
    (hb : body (r.enter k path) = some (passed, w, (r.enter k path).after vs es)) :
    r.guardedChange k path v body =
      some (passed, w, r.after vs (es ++ [.question ⟨k, path, v, r.active, true, passed⟩])) := by
  have hnote := (r.after vs es).note_eq (.question ⟨k, path, v, r.active, true, passed⟩)
  rw [r.after_after, List.append_nil] at hnote
  rw [GuardedRun.guardedChange, if_neg hk, hb, ← hnote, ← r.leave_enter_after vs es k path]
  rfl

end Guard

/-! ## Checks -/

/-- A node that changes every value of at most the given height alike with one guard. -/
def Node.AltersAt (s : Scope) (m : Changes) (n : Node) (level : Nat) (p : Site) : Prop :=
  ∀ A budget depth d, p.Guards A → s.Sound A → s.budget level p ≤ budget → level ≤ depth →
    ∀ v : Json, v.height ≤ level → Alters Json.height A d (Event.Safe s)
      (fun v r => n.change s m budget v p.path r) (fun v t => n.apply s m depth v p t) v

/-- The same of a check of the node `n`. -/
def Check.AltersAt (s : Scope) (m : Changes) (n : Node) (c : Check) (level : Nat) (p : Site) :
    Prop :=
  ∀ A budget depth, p.Guards A → s.Sound A → s.budget level p ≤ budget → level ≤ depth →
    ∀ v : Json, v.height ≤ level → Alters Json.height A n.heading.declaredType (Event.Safe s)
      (fun v r => c.change s m budget n v p.path r)
      (fun v t => c.apply s m depth n.heading v p t) v

section Runs

variable {s : Scope} {m : Changes} {n : Node} {c : Check} {level : Nat} {p : Site}

theorem Scope.budget_mono {level' : Nat} (h : level' ≤ level) :
    s.budget level' p ≤ s.budget level p :=
  Nat.add_le_add_left (Nat.mul_le_mul_left _ (Nat.sub_le_sub_right h 1)) _

/-- A check that only looks at the value takes a step of a guarded run. -/
theorem Check.alters_look (hc : c ∈ n.checks) {A : List (Target × Path)} {budget : Nat}
    (hA : p.Guards A) (hs : s.Sound A) (hb : s.budget level p ≤ budget) {v : Json}
    (hv : v.height ≤ level) {f : Json → GuardedRun → Option (Json × GuardedRun)}
    {g : Json → Tally → Option (Json × Tally)}
    (hf : ∀ r, f v r = c.run s budget n v p.path r >>= fun r => some (v, r))
    (hg : ∀ t, g v t = some (v, c.check s n.heading v p t)) :
    Alters Json.height A n.heading.declaredType (Event.Safe s) f g v := by
  have hrun := c.run_performs s n v p hc A budget hA hs
    (Nat.le_trans (Scope.budget_mono hv) hb)
  refine Alters.look (hrun.imp fun e => Node.Notes.safe) hf fun t => ?_
  rw [hg, c.check_eq]

theorem Check.apply_reference (depth : Nat) (h : Heading) (text : String) (place : Path)
    (v : Json) (t : Tally) :
    (reference text place).apply s m depth h v p t =
      match s.subroutines.lookup (.reference text) with
      | none => some (v, t)
      | some k =>
        if .reference text ∈ p.entered then some (v, t)
        else do
          let (v, inner) ← k.apply s m depth v (p.enter (.reference text)) (Tally.start .off)
          return (v, h.demand (inner.count == 0) .reference v place p t) := by
  rw [apply]
  split
  · next hn => rw [Option.attach_eq_none_iff.1 hn]
  · next k hk _ =>
    rw [Option.mem_def.1 hk]
    by_cases he : .reference text ∈ p.entered <;> simp [he]

theorem Check.apply_schemaFormat (depth : Nat) (h : Heading) (name : String) (v : Json)
    (t : Tally) :
    (schemaFormat name).apply s m depth h v p t =
      match s.subroutines.lookup (.format name) with
      | none => some (v, t)
      | some k =>
        if .format name ∈ p.entered then some (v, t)
        else k.apply s m depth v (p.enter (.format name)) t := by
  rw [apply]
  split
  · next hn => rw [Option.attach_eq_none_iff.1 hn]
  · next k hk _ =>
    rw [Option.mem_def.1 hk]
    by_cases he : .format name ∈ p.entered <;> simp [he]

/-- A step that has a certain outcome, a verdict and a value, wherever certain targets are
active. -/
def Yields (s : Scope) (A : List (Target × Path)) (d : Option Json)
    (f : GuardedRun → Option (Bool × Json × GuardedRun)) (passed : Bool) (w : Json)
    (vs : List Violation) : Prop :=
  ∀ r : GuardedRun, r.active = A → r.declaredType = d →
    ∃ es, f r = some (passed, w, r.after vs es) ∧ ∀ e ∈ es, e.Safe s

variable {A : List (Target × Path)} {d : Option Json} {v w : Json} {vs : List Violation}

theorem yields_probeChange {f : GuardedRun → Option (Json × GuardedRun)}
    (hf : ∀ r : GuardedRun, r.active = A → r.declaredType = d →
      ∃ es, f r = some (w, r.after vs es) ∧ ∀ e ∈ es, e.Safe s) :
    Yields s A d (fun r => r.probeChange f) vs.isEmpty w [] := by
  intro r hr hd
  obtain ⟨es, hf, hes⟩ := hf r.suspend hr hd
  refine ⟨es, ?_, hes⟩
  show r.probeChange f = _
  rw [GuardedRun.probeChange, hf, ← r.rewind_suspend_after vs, ← r.quietSince_suspend_after vs es]
  rfl

theorem yields_watchChange {f : GuardedRun → Option (Json × GuardedRun)}
    (hf : ∀ r : GuardedRun, r.active = A → r.declaredType = d →
      ∃ es, f r = some (w, r.after vs es) ∧ ∀ e ∈ es, e.Safe s) :
    Yields s A d (fun r => r.watchChange f) vs.isEmpty w vs := by
  intro r hr hd
  obtain ⟨es, hf, hes⟩ := hf r hr hd
  refine ⟨es, ?_, hes⟩
  show r.watchChange f = _
  rw [GuardedRun.watchChange, hf, ← r.quietSince_after vs es]
  rfl

theorem yields_entered {k : Target} (he : k ∈ p.entered) (hA : p.Guards A) (hs : s.Sound A)
    (body : GuardedRun → Option (Bool × Json × GuardedRun)) :
    Yields s A d (fun r => r.guardedChange k p.path v body) true v [] := by
  rintro r rfl -
  refine ⟨_, guardedChange_of_mem ((hA.mem_iff k).mpr he), ?_⟩
  intro e h
  rw [List.mem_singleton.mp h]
  exact hs

theorem yields_enter {k : Target} {n' : Node} {passed : Bool}
    (hn : s.subroutines.lookup k = some n') (he : k ∉ p.entered) (hA : p.Guards A)
    (hs : s.Sound A) {body : GuardedRun → Option (Bool × Json × GuardedRun)}
    (hbody : Yields s ((k, p.path) :: A) d body passed w vs) :
    Yields s A d (fun r => r.guardedChange k p.path v body) passed w vs := by
  rintro r rfl hd
  have hmem : (k, p.path) ∉ r.active := fun h => he ((hA.mem_iff k).mp h)
  obtain ⟨es, hrun, hes⟩ := hbody (r.enter k p.path) rfl hd
  refine ⟨_, guardedChange_of_not_mem hmem hrun, fun e h => ?_⟩
  rcases List.mem_append.mp h with h | h
  · exact hes e h
  · rw [List.mem_singleton.mp h]
    exact hs.enter hn hmem

/-- A verdict and a value that were reached without a report leave the report of a demand. -/
theorem demand_of_yields {f : GuardedRun → Option (Bool × Json × GuardedRun)} {passed : Bool}
    (h : Heading) (kind : Violation.Kind) (place : Path)
    (hf : Yields s A h.declaredType f passed w []) (r : GuardedRun) (hr : r.active = A)
    (hd : r.declaredType = h.declaredType) :
    ∃ es, (f r >>= fun x => some (x.2.1, x.2.2.demand x.1 p.path kind x.2.1 place)) =
      some (w, r.after (h.demandReports passed kind w place p) es) ∧ ∀ e ∈ es, e.Safe s := by
  obtain ⟨es, hf, hes⟩ := hf r hr hd
  obtain ⟨fs, hdemand, hfs⟩ := demand_after hes h passed kind w place p hd
  refine ⟨fs, ?_, hfs⟩
  rw [hf]
  simp only [Option.some.injEq] at hdemand
  show some (w, _) = _
  rw [hdemand]

/-- What a target that is not entered yet makes of a value. -/
theorem Node.AltersAt.enter {k : Target} {n' : Node} {budget depth : Nat}
    (h : n'.AltersAt s m level (p.enter k)) (hn : s.subroutines.lookup k = some n')
    (he : k ∉ p.entered) (hA : p.Guards A) (hs : s.Sound A) (hb : s.budget level p ≤ budget)
    (hl : level ≤ depth) {v : Json} (hv : v.height ≤ level) (d : Option Json) :
    ∃ rest w vs, budget = rest + 1 ∧ w.height ≤ v.height ∧
      (∀ t, n'.apply s m depth v (p.enter k) t = some (w, t.reportAll vs)) ∧
        ∀ r : GuardedRun, r.active = (k, p.path) :: A → r.declaredType = d →
          ∃ es, n'.change s m rest v p.path r = some (w, r.after vs es) ∧ ∀ e ∈ es, e.Safe s := by
  have hlt : s.budget level (p.enter k) < s.budget level p := Scope.budget_enter hn he
  have hsound := hs.enter hn fun h => he ((hA.mem_iff _).mp h)
  obtain ⟨rest, rfl⟩ : ∃ rest, budget = rest + 1 := ⟨budget - 1, by omega⟩
  obtain ⟨w, vs, hw, happly, hchange⟩ :=
    h _ rest depth d (hA.enter k) hsound (by omega) hl v hv
  exact ⟨rest, w, vs, rfl, hw, happly, hchange⟩

theorem Check.alters_reference {text : String} {place : Path}
    (target : ∀ k, s.subroutines.lookup (.reference text) = some k → .reference text ∉ p.entered →
      k.AltersAt s m level (p.enter (.reference text))) :
    (reference text place).AltersAt s m n level p := by
  intro A budget depth hA hs hb hl v hv
  cases hn : s.subroutines.lookup (.reference text) with
  | none =>
    refine Alters.look Performs.nothing (fun r => ?_) fun t => ?_
    · rw [change, hn]
      rfl
    · rw [apply_reference, hn]
      rfl
  | some k =>
    by_cases he : .reference text ∈ p.entered
    · refine ⟨v, [], Nat.le_refl _, fun t => ?_, fun r hr hd => ?_⟩
      · simp only [apply_reference, hn, he, if_true]
        rfl
      · simp only [change, hn]
        exact demand_of_yields n.heading .reference place (yields_entered he hA hs _) r hr hd
    · obtain ⟨rest, w, vs, rfl, hw, happly, hchange⟩ :=
        (target k hn he).enter hn he hA hs hb hl hv n.heading.declaredType
      refine ⟨w, n.heading.demandReports vs.isEmpty .reference w place p, hw, fun t => ?_,
        fun r hr hd => ?_⟩
      · have hpass : (((Tally.start .off).reportAll vs).count == 0) = vs.isEmpty :=
          Emits.passes (f := fun t => t.reportAll vs) fun t => rfl
        simp only [apply_reference, hn, he, if_false, happly]
        rw [← n.heading.emits_demand vs.isEmpty .reference w place p t, ← hpass]
        rfl
      · simp only [change, hn]
        exact demand_of_yields n.heading .reference place
          (yields_enter hn he hA hs (yields_probeChange hchange)) r hr hd

theorem Check.alters_schemaFormat {name : String}
    (target : ∀ k, s.subroutines.lookup (.format name) = some k → .format name ∉ p.entered →
      k.AltersAt s m level (p.enter (.format name))) :
    (schemaFormat name).AltersAt s m n level p := by
  intro A budget depth hA hs hb hl v hv
  cases hn : s.subroutines.lookup (.format name) with
  | none =>
    refine Alters.look Performs.nothing (fun r => ?_) fun t => ?_
    · rw [change, hn]
      rfl
    · rw [apply_schemaFormat, hn]
      rfl
  | some k =>
    by_cases he : .format name ∈ p.entered
    · refine ⟨v, [], Nat.le_refl _, fun t => ?_, fun r hr hd => ?_⟩
      · simp only [apply_schemaFormat, hn, he, if_true]
        rfl
      · obtain ⟨es, hy, hes⟩ := yields_entered (v := v) he hA hs
          (fun r => spend budget fun rest _ => r.watchChange fun r =>
            k.change s m rest v p.path r) r hr hd
        refine ⟨es, ?_, hes⟩
        simp only [change, hn]
        exact congrArg (· >>= fun x => some x.2) hy
    · obtain ⟨rest, w, vs, rfl, hw, happly, hchange⟩ :=
        (target k hn he).enter hn he hA hs hb hl hv n.heading.declaredType
      refine ⟨w, vs, hw, fun t => ?_, fun r hr hd => ?_⟩
      · simp only [apply_schemaFormat, hn, he, if_false, happly]
      · obtain ⟨es, hy, hes⟩ := yields_enter hn he hA hs (yields_watchChange hchange) r hr hd
        refine ⟨es, ?_, hes⟩
        simp only [change, hn]
        exact congrArg (· >>= fun x => some x.2) hy

/-! ## Checks on parts -/

/-- A nested node changes a part of the value alike, one level further down. -/
theorem Node.AltersAt.part {k : Node} {budget depth level' : Nat}
    (down : ∀ level' < level, ∀ seg, k.AltersAt s m level' (p.down seg)) (hA : p.Guards A)
    (hs : s.Sound A) (hb : s.budget level p ≤ budget) (hd : level ≤ depth + 1)
    (hk : k.PartOf n) (hl : level' < level) (hw : w.height ≤ level') (seg : Segment)
    (d : Option Json) :
    Alters Json.height A d (Event.Safe s)
      (fun w r => k.change s m budget w (p.path ++ [seg]) (r.note (.nested n k)))
      (fun w t => k.apply s m depth w (p.down seg) t) w := by
  have hpos : 0 < level' := Nat.lt_of_lt_of_le w.height_pos hw
  have hbudget := Nat.le_trans (Scope.budget_down (p := p) hpos hl seg) hb
  exact Alters.note hk
    (down level' hl seg A budget depth d (hA.down seg) hs hbudget (by omega) w hw)

/-- A nested node changes the value itself alike. -/
theorem Node.AltersAt.here {k : Node} {budget depth : Nat} (h : k.AltersAt s m level p)
    (hA : p.Guards A) (hs : s.Sound A) (hb : s.budget level p ≤ budget) (hd : level ≤ depth)
    (hk : k.PartOf n) (hv : v.height ≤ level) (d : Option Json) :
    Alters Json.height A d (Event.Safe s)
      (fun v r => k.change s m budget v p.path (r.note (.nested n k)))
      (fun v t => k.apply s m depth v p t) v :=
  Alters.note hk (h A budget depth d hA hs hb hd v hv)

theorem Check.alters_allOf {ns : List Node} (hc : allOf ns ∈ n.checks)
    (stay : ∀ k ∈ ns, k.AltersAt s m level p) : (allOf ns).AltersAt s m n level p := by
  intro A budget depth hA hs hb hl v hv
  simp only [change, apply]
  apply Alters.foldlM
  intro k hk w hw
  have hpart : k.PartOf n := ⟨_, hc, List.mem_append_left _ hk⟩
  exact (stay k hk).here hA hs hb hl hpart (Nat.le_trans hw hv) _

theorem Check.alters_dependencies {entries : List (String × Dependency)}
    (hc : dependencies entries ∈ n.checks)
    (stay : ∀ k ∈ (dependencies entries).nodesHere, k.AltersAt s m level p) :
    (dependencies entries).AltersAt s m n level p := by
  intro A budget depth hA hs hb hl v hv
  simp only [change, apply]
  apply Alters.foldlM
  rintro ⟨name, dep⟩ he w hw
  cases hget : (w.get? name).isSome with
  | false =>
    exact Alters.nothing.congr (fun r => by rw [hget]; rfl) fun t => by rw [hget]; rfl
  | true =>
    cases dep with
    | names names place =>
      refine Alters.look (Performs.demand (names.all fun name => (w.get? name).isSome) p.path
        .dependencies w place) (fun r => ?_) fun t => ?_
      · simp only [hget, cond_true, Dependency.change]
        rfl
      · simp only [hget, cond_true, Dependency.apply, Dependency.check,
          n.heading.emits_demand _ _ _ _ _ t]
        rfl
    | schema k =>
      have hmem : k ∈ (dependencies entries).nodesHere := List.mem_filterMap.mpr ⟨_, he, rfl⟩
      have hpart : k.PartOf n := ⟨_, hc, List.mem_append_left _ hmem⟩
      have h := (stay k hmem).here hA hs hb hl hpart (Nat.le_trans hw hv) n.heading.declaredType
      exact h.congr (fun r => by rw [hget, cond_true, Dependency.change])
        fun t => by rw [hget, cond_true, Dependency.apply]

theorem Check.alters_closed {declared : Declared} {place : Path}
    (hc : closed declared place ∈ n.checks) : (closed declared place).AltersAt s m n level p := by
  intro A budget depth hA hs hb hl v hv
  cases v with
  | object ms =>
    cases hm : m.filter with
    | false =>
      exact alters_look hc hA hs hb hv (fun r => by simp only [change.eq_def, hm]; rfl)
        fun t => by simp only [apply.eq_def, hm]
    | true =>
      refine ⟨.object (ms.filter fun e => declared.has e.1), [], ?_, fun t => ?_, fun r _ _ => ?_⟩
      · rw [Json.height, Json.height]
        exact Nat.succ_le_succ (heightMembers_filter_le _ ms)
      · simp only [apply, hm]
        rfl
      · refine ⟨[], ?_, List.forall_mem_nil _⟩
        simp only [change, hm, r.after_nil]
  | _ =>
    exact alters_look hc hA hs hb hv (fun r => by simp only [change]; rfl)
      fun t => by simp only [apply]

theorem Check.alters_additional {declared : Declared} {k : Node}
    (hc : additional declared k ∈ n.checks)
    (down : ∀ level' < level, ∀ seg, k.AltersAt s m level' (p.down seg)) :
    (additional declared k).AltersAt s m n level p := by
  intro A budget depth hA hs hb hl v hv
  have hpart : k.PartOf n := ⟨_, hc, List.mem_append_right _ (by simp [nodesBelow])⟩
  cases v with
  | object ms =>
    rw [Json.height] at hv
    obtain ⟨depth, rfl⟩ : ∃ d, depth = d + 1 := ⟨depth - 1, by omega⟩
    have hms := Json.heightMembers_le_iff.mp (Nat.le_refl (Json.heightMembers ms))
    have h := Alters.changeMembers (A := A) (d := n.heading.declaredType) (P := Event.Safe s)
      (f := fun name w r => bif declared.has name then some (w, r)
        else k.change s m budget w (p.path ++ [.name name]) (r.note (.nested n k)))
      (g := fun name w t => bif declared.has name then some (w, t)
        else k.apply s m depth w (p.down (.name name)) t) ms fun e he => by
      cases hd : declared.has e.1 with
      | true => exact Alters.nothing
      | false => exact Node.AltersAt.part down hA hs hb hl hpart hv (hms e he) (.name e.1) _
    exact h.object (fun r => by rw [change]; rfl) fun t => by rw [apply]; rfl
  | _ => exact Alters.nothing.congr (fun r => by simp only [change]) fun t => by simp only [apply]

theorem Check.alters_items {k : Node} (hc : items k ∈ n.checks)
    (down : ∀ level' < level, ∀ seg, k.AltersAt s m level' (p.down seg)) :
    (items k).AltersAt s m n level p := by
  intro A budget depth hA hs hb hl v hv
  have hpart : k.PartOf n := ⟨_, hc, List.mem_append_right _ (by simp [nodesBelow])⟩
  cases v with
  | array xs =>
    rw [Json.height] at hv
    obtain ⟨depth, rfl⟩ : ∃ d, depth = d + 1 := ⟨depth - 1, by omega⟩
    have hxs := Json.heightItems_le_iff.mp (Nat.le_refl (Json.heightItems xs))
    have h := Alters.changeItems (d := n.heading.declaredType) (P := Event.Safe s)
      (f := fun i x r => k.change s m budget x (p.path ++ [.index i]) (r.note (.nested n k)))
      (g := fun i x t => k.apply s m depth x (p.down (.index i)) t) xs
      (fun i x hx => Node.AltersAt.part down hA hs hb hl hpart hv (hxs x hx) (.index i) _) 0
    exact h.array (fun r => by rw [change]; rfl) fun t => by rw [apply]; rfl
  | _ => exact Alters.nothing.congr (fun r => by simp only [change]) fun t => by simp only [apply]

theorem Check.alters_additionalItems {limit : Nat} {k : Node}
    (hc : additionalItems limit k ∈ n.checks)
    (down : ∀ level' < level, ∀ seg, k.AltersAt s m level' (p.down seg)) :
    (additionalItems limit k).AltersAt s m n level p := by
  intro A budget depth hA hs hb hl v hv
  have hpart : k.PartOf n := ⟨_, hc, List.mem_append_right _ (by simp [nodesBelow])⟩
  cases v with
  | array xs =>
    rw [Json.height] at hv
    obtain ⟨depth, rfl⟩ : ∃ d, depth = d + 1 := ⟨depth - 1, by omega⟩
    have hxs := Json.heightItems_le_iff.mp (Nat.le_refl (Json.heightItems xs))
    have h := Alters.changeItems (d := n.heading.declaredType) (P := Event.Safe s) (A := A)
      (f := fun i x r => if i < limit then some (x, r)
        else k.change s m budget x (p.path ++ [.index i]) (r.note (.nested n k)))
      (g := fun i x t => if i < limit then some (x, t)
        else k.apply s m depth x (p.down (.index i)) t) xs
      (fun i x hx => by
        by_cases hi : i < limit
        · simp only [hi, if_true]
          exact Alters.nothing
        · simp only [hi, if_false]
          exact Node.AltersAt.part down hA hs hb hl hpart hv (hxs x hx) (.index i) _) 0
    exact h.array (fun r => by rw [change]; rfl) fun t => by rw [apply]; rfl
  | _ => exact Alters.nothing.congr (fun r => by simp only [change]) fun t => by simp only [apply]

theorem Check.alters_patternProperties {entries : List (Pattern × Node)}
    (hc : patternProperties entries ∈ n.checks)
    (down : ∀ k ∈ (patternProperties entries).nodesBelow, ∀ level' < level, ∀ seg,
      k.AltersAt s m level' (p.down seg)) :
    (patternProperties entries).AltersAt s m n level p := by
  intro A budget depth hA hs hb hl v hv
  cases v with
  | object ms =>
    rw [Json.height] at hv
    obtain ⟨depth, rfl⟩ : ∃ d, depth = d + 1 := ⟨depth - 1, by omega⟩
    have hms := Json.heightMembers_le_iff.mp (Nat.le_refl (Json.heightMembers ms))
    have h := Alters.changeMembers (A := A) (d := n.heading.declaredType) (P := Event.Safe s)
      (f := fun name w r => entries.foldlM (fun y e =>
        bif e.1.accepts name then
          e.2.change s m budget y.1 (p.path ++ [.name name]) (y.2.note (.nested n e.2))
        else some y) (w, r))
      (g := fun name w t => entries.foldlM (fun y e =>
        bif e.1.accepts name then e.2.apply s m depth y.1 (p.down (.name name)) y.2
        else some y) (w, t)) ms fun e he => by
      apply Alters.foldlM
      intro f hf w hw
      have hmem : f.2 ∈ (patternProperties entries).nodesBelow := List.mem_map_of_mem hf
      have hpart : f.2.PartOf n := ⟨_, hc, List.mem_append_right _ hmem⟩
      cases f.1.accepts e.1 with
      | false => exact Alters.nothing
      | true =>
        exact Node.AltersAt.part (down _ hmem) hA hs hb hl hpart hv
          (Nat.le_trans hw (hms e he)) (.name e.1) _
    exact h.object (fun r => by rw [change]; rfl) fun t => by rw [apply]; rfl
  | _ => exact Alters.nothing.congr (fun r => by simp only [change]) fun t => by simp only [apply]

/-- A nested node looks after an absent part, as no default is filled in for it. -/
theorem alters_absent {σ : Type} {μ : σ → Nat} {x : σ} (k : Heading) (p : Site) (seg : Segment) :
    Alters μ A d (Event.Safe s) (fun x r => some (x, r.checkAbsent k (p.path ++ [seg])))
      (fun x t => some (x, k.checkAbsent (p.down seg) t)) x := by
  refine Alters.look (performs_checkAbsent k (p.down seg)) (fun r => rfl) fun t => ?_
  rw [k.emits_checkAbsent (p.down seg) t]

theorem Check.alters_tuple {ns : List Node} (hc : tuple ns ∈ n.checks)
    (hm : ∀ k ∈ ns, k.heading.filling? m = none)
    (down : ∀ k ∈ ns, ∀ level' < level, ∀ seg, k.AltersAt s m level' (p.down seg)) :
    (tuple ns).AltersAt s m n level p := by
  intro A budget depth hA hs hb hl v hv
  cases v with
  | array xs =>
    rw [Json.height] at hv
    obtain ⟨depth, rfl⟩ : ∃ d, depth = d + 1 := ⟨depth - 1, by omega⟩
    refine (Alters.foldlM (μ := Json.heightItems) ns.zipIdx.attach ?_).array
      (fun r => by rw [change]; rfl) fun t => by rw [apply]; rfl
    rintro ⟨⟨k, i⟩, hmem⟩ - ys hys
    have hk : k ∈ ns := List.fst_mem_of_mem_zipIdx hmem
    have hpart : k.PartOf n := ⟨_, hc, List.mem_append_right _ hk⟩
    cases hy : ys[i]? with
    | some y =>
      have hheight := Json.heightItems_le_iff.mp hys y (List.mem_of_getElem? hy)
      have h := Node.AltersAt.part (down k hk) hA hs hb hl hpart hv hheight (.index i)
        n.heading.declaredType
      refine h.image (fun z => ys.set i z) (fun z hz => heightItems_set_le hy hz)
        (fun r => ?_) fun t => ?_
      · simp only [hy]
        rfl
      · simp only [hy]
        rfl
    | none =>
      refine (alters_absent k.heading p (.index i)).congr (fun r => ?_) fun t => ?_
      · simp only [hy, hm k hk, ite_self]
      · simp only [hy, hm k hk, ite_self]
  | _ => exact Alters.nothing.congr (fun r => by simp only [change]) fun t => by simp only [apply]

theorem Check.alters_properties {entries : List (String × Node)} {skipNull : Bool}
    (hc : properties entries skipNull ∈ n.checks)
    (hm : ∀ e ∈ entries, e.2.heading.filling? m = none)
    (down : ∀ e ∈ entries, ∀ level' < level, ∀ seg, e.2.AltersAt s m level' (p.down seg)) :
    (properties entries skipNull).AltersAt s m n level p := by
  intro A budget depth hA hs hb hl v hv
  cases v with
  | object ms =>
    rw [Json.height] at hv
    obtain ⟨depth, rfl⟩ : ∃ d, depth = d + 1 := ⟨depth - 1, by omega⟩
    refine (Alters.foldlM (μ := Json.heightMembers) entries ?_).object
      (fun r => by rw [change]; rfl) fun t => by rw [apply]; rfl
    rintro ⟨name, k⟩ he ns hns
    have hpart : k.PartOf n :=
      ⟨_, hc, List.mem_append_right _ (List.mem_map_of_mem (f := Prod.snd) he)⟩
    cases hw : ns.lookup name with
    | some w =>
      have hheight := Json.heightMembers_le_iff.mp hns _ (mem_of_lookup hw)
      have h := Node.AltersAt.part (down _ he) hA hs hb hl hpart hv hheight (.name name)
        n.heading.declaredType
      refine h.image (fun z => Members.replace ns name z)
        (fun z hz => heightMembers_replace_le hw hz) (fun r => ?_) fun t => ?_
      · simp only [hw]
        rfl
      · simp only [hw]
        rfl
    | none =>
      refine (alters_absent k.heading p (.name name)).congr (fun r => ?_) fun t => ?_
      · simp only [hw, hm _ he]
      · simp only [hw, hm _ he]
  | _ =>
    exact alters_look hc hA hs hb hv (fun r => by simp only [change]; rfl)
      fun t => by simp only [apply]

/-! ## Nodes -/

theorem alters_reportMissing (h : Heading) (p : Site) (v : Json) :
    Alters Json.height A h.declaredType (Event.Safe s)
      (fun v r => some (v, r.reportMissing h v p.path))
      (fun v t => some (v, h.reportMissing v p t)) v := by
  refine Alters.look performs_reportMissing (fun r => rfl) fun t => ?_
  rw [h.emits_reportMissing v p t]

/-- The checks of a list one after another. -/
theorem Check.alters_all {cs : List Check} (hcs : ∀ c ∈ cs, c.AltersAt s m n level p)
    {budget depth : Nat} (hA : p.Guards A) (hs : s.Sound A) (hb : s.budget level p ≤ budget)
    (hl : level ≤ depth) {v : Json} (hv : v.height ≤ level) :
    Alters Json.height A n.heading.declaredType (Event.Safe s)
      (fun v r => cs.foldlM (fun (v, r) c => c.change s m budget n v p.path r) (v, r))
      (fun v t => cs.foldlM (fun (v, t) c => c.apply s m depth n.heading v p t) (v, t)) v := by
  apply Alters.foldlM
  intro c hc w hw
  exact hcs c hc A budget depth hA hs hb hl w (Nat.le_trans hw hv)

/-- The checks that wait for the required members. -/
theorem Check.alters_tail {tail : List Check} (htail : ∀ c ∈ tail, c.AltersAt s m n level p)
    {budget depth : Nat} (hA : p.Guards A) (hs : s.Sound A) (hb : s.budget level p ≤ budget)
    (hl : level ≤ depth) {v : Json} (hv : v.height ≤ level) :
    Alters Json.height A n.heading.declaredType (Event.Safe s)
      (fun v r => if n.heading.missing v = [] ∨ s.greedy = true then
        tail.foldlM (fun (v, r) c => c.change s m budget n v p.path r) (v, r)
        else some (v, r))
      (fun v t => if n.heading.missing v = [] ∨ s.greedy = true then
        tail.foldlM (fun (v, t) c => c.apply s m depth n.heading v p t) (v, t)
        else some (v, t)) v := by
  by_cases hm : n.heading.missing v = [] ∨ s.greedy = true
  · exact (alters_all htail hA hs hb hl hv).congr (fun r => if_pos hm) fun t => if_pos hm
  · exact Alters.nothing.congr (fun r => if_neg hm) fun t => if_neg hm

theorem Node.alters_mk (hc : ∀ c ∈ n.checks, c.AltersAt s m n level p) :
    n.AltersAt s m level p := by
  obtain ⟨h, head, tail⟩ := n
  intro A budget depth d hA hs hb hl v hv
  by_cases ht : h.acceptsType v = true
  · have hhead := Check.alters_all (fun c hmem => hc c (List.mem_append_left tail hmem))
      hA hs hb hl hv
    have htail : ∀ w : Json, w.height ≤ v.height → _ := fun w hw =>
      Check.alters_tail (fun c hmem => hc c (List.mem_append_right head hmem)) hA hs hb hl
        (Nat.le_trans hw hv)
    refine (hhead.comp fun w hw => (alters_reportMissing h p w).comp fun x hx =>
      htail x (Nat.le_trans hx hw)).under.congr (fun r => ?_) fun t => ?_
    · simp only [Node.change, ht, if_true]
      rfl
    · simp only [Node.apply, ht, if_true]
      rfl
  · have hreport : Alters Json.height A h.declaredType (Event.Safe s)
        (fun v r => some (v, r.report p.path .type (some v) (h.place "type")))
        (fun v t => some (v, t.reportAll
          [⟨p.path, .type, some ⟨some v, h.declaredType, h.place "type"⟩⟩])) v :=
      Alters.look (Performs.report p.path .type (some v) (h.place "type")) (fun _ => rfl)
        fun _ => rfl
    refine hreport.under.congr (fun r => ?_) fun t => ?_
    · simp only [Node.change, ht]
      rfl
    · simp only [Node.apply, ht]
      rfl

/-- **A mutating run that fills in nothing ends within the levels of the value**, and so does its
guarded counterpart with budget enough: they change the value alike and make the same reports, and
the active targets stay distinct throughout. -/
theorem Node.alters (s : Scope) (m : Changes)
    (hs : ∀ k n, s.subroutines.lookup k = some n → n.Unfilled m) (n : Node) (level : Nat)
    (p : Site) : n.Unfilled m → n.AltersAt s m level p := by
  have key : (∀ (n : Node) level p, n.Unfilled m → n.AltersAt s m level p) ∧
      ∀ c level p, ∀ n : Node, c ∈ n.checks → (∀ k ∈ c.nodes, k.Unfilled m) →
        Check.AltersAt s m n c level p := by
    apply s.level_induction
    · intro n level p ih hn
      exact Node.alters_mk fun c hc => ih c hc n hc fun k hk => hn.nested hc hk
    · intro c level p here below target n hc hk
      have hhere : ∀ k ∈ c.nodesHere, k.AltersAt s m level p :=
        fun k hmem => here k hmem (hk k (List.mem_append_left _ hmem))
      have hbelow : ∀ k ∈ c.nodesBelow, ∀ level' < level, ∀ seg,
          k.AltersAt s m level' (p.down seg) := fun k hmem level' hl seg =>
        below k hmem level' hl seg (hk k (List.mem_append_right _ hmem))
      have hheading : ∀ k ∈ c.nodesBelow, k.heading.filling? m = none :=
        fun k hmem => (hk k (List.mem_append_right _ hmem)).heading
      have htarget : ∀ k n, c.target? = some k → s.subroutines.lookup k = some n →
          k ∉ p.entered → n.AltersAt s m level (p.enter k) :=
        fun k n hk hn he => target k n hk hn he (hs k n hn)
      cases c with
      | reference text place => exact Check.alters_reference fun k => htarget _ k rfl
      | schemaFormat name => exact Check.alters_schemaFormat fun k => htarget _ k rfl
      | dependencies entries => exact Check.alters_dependencies hc hhere
      | closed declared place => exact Check.alters_closed hc
      | additional declared k =>
        exact Check.alters_additional hc (hbelow k (by simp [Check.nodesBelow]))
      | items k => exact Check.alters_items hc (hbelow k (by simp [Check.nodesBelow]))
      | patternProperties entries => exact Check.alters_patternProperties hc hbelow
      | allOf ns => exact Check.alters_allOf hc hhere
      | tuple ns => exact Check.alters_tuple hc hheading hbelow
      | properties entries skipNull =>
        exact Check.alters_properties hc (fun e he => hheading _ (List.mem_map_of_mem he))
          fun e he => hbelow _ (List.mem_map_of_mem he)
      | additionalItems limit k =>
        exact Check.alters_additionalItems hc (hbelow k (by simp [Check.nodesBelow]))
      | rule | negation | anyOf | oneOf =>
        intro A budget depth hA hs hb hl v hv
        exact Check.alters_look hc hA hs hb hv (fun r => by simp only [Check.change]; rfl)
          fun t => by simp only [Check.apply, Check.check]
  exact key.1 n level p

end Runs

end JsonSchema
