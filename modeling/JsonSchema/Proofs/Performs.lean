import JsonSchema.Proofs.GuardedRun

/-!
# Steps of a guarded run

A step of a guarded run adds certain reports and some events, and leaves the active targets, the
declared type and the level of suspension as it found them.

* `GuardedRun.after`: a state after some reports and events;
* `Performs`: a step that adds certain reports, and events of one kind;
* `Performs.foldlM`, `probe_of_performs`, `guarded_of_not_mem`: how steps combine.
-/

namespace JsonSchema

/-! ## States after reports and events -/

namespace GuardedRun

/-- The state after some reports and events. -/
def after (r : GuardedRun) (vs : List Violation) (es : List Event) : GuardedRun :=
  { r with
    tally := if r.suspended = 0 then r.tally.reportAll vs
      else { r.tally with count := r.tally.count + vs.length }
    log := r.log ++ es }

variable (r : GuardedRun) (vs ws : List Violation) (es fs : List Event)

theorem count_after : (r.after vs es).tally.count = r.tally.count + vs.length := by
  rw [after]
  by_cases h : r.suspended = 0
  · simp only [h, if_true]
    exact Tally.count_reportAll _ _
  · simp only [h, if_false]

theorem after_nil : r.after [] [] = r := by
  rw [after]
  by_cases h : r.suspended = 0
  · simp only [h, if_true, List.append_nil, Tally.reportAll, List.foldl_nil]
    rw [← h]
  · simp only [h, if_false, List.append_nil, List.length_nil, Nat.add_zero]

theorem after_after : (r.after vs es).after ws fs = r.after (vs ++ ws) (es ++ fs) := by
  simp only [after]
  by_cases h : r.suspended = 0
  · simp only [h, if_true, Tally.reportAll_append, List.append_assoc]
  · simp only [h, if_false, List.length_append, Nat.add_assoc, List.append_assoc]

theorem add_eq (v : Violation) : r.add v = r.after [v] [] := by
  rw [add, after, List.append_nil]
  rfl

theorem note_eq (e : Event) : r.note e = r.after [] [e] := by
  have h := after_after r [] [] [] [e]
  rw [after_nil] at h
  rw [note, after]
  by_cases hs : r.suspended = 0
  · simp only [hs, if_true, Tally.reportAll, List.foldl_nil]
  · simp only [hs, if_false, List.length_nil, Nat.add_zero]

end GuardedRun

/-! ## Steps -/

/-- A step that adds certain reports, and events of one kind, whenever certain targets are active
and the current node has a certain declared type. -/
def Performs (A : List (Target × Path)) (d : Option Json) (P : Event → Prop)
    (f : GuardedRun → Option GuardedRun) (vs : List Violation) : Prop :=
  ∀ r, r.active = A → r.declaredType = d → ∃ es, f r = some (r.after vs es) ∧ ∀ e ∈ es, P e

namespace Performs

variable {A : List (Target × Path)} {d : Option Json} {P P' : Event → Prop}
  {f g : GuardedRun → Option GuardedRun} {vs ws : List Violation}

theorem imp (h : Performs A d P f vs) (hP : ∀ e, P e → P' e) : Performs A d P' f vs := by
  intro r hA hd
  obtain ⟨es, hf, he⟩ := h r hA hd
  exact ⟨es, hf, fun e h => hP e (he e h)⟩

theorem nothing : Performs A d P some [] :=
  fun r _ _ => ⟨[], by rw [r.after_nil], List.forall_mem_nil _⟩

theorem comp (hf : Performs A d P f vs) (hg : Performs A d P g ws) :
    Performs A d P (fun r => f r >>= g) (vs ++ ws) := by
  intro r hA hd
  obtain ⟨es, hf, he⟩ := hf r hA hd
  obtain ⟨fs, hg, he'⟩ := hg (r.after vs es) hA hd
  refine ⟨es ++ fs, ?_, fun e h => (List.mem_append.mp h).elim (he e) (he' e)⟩
  show f r >>= g = _
  rw [hf, ← r.after_after]
  exact hg

theorem foldlM {α : Type} {f : GuardedRun → α → Option GuardedRun}
    {reports : α → List Violation} (xs : List α)
    (h : ∀ x ∈ xs, Performs A d P (fun r => f r x) (reports x)) :
    Performs A d P (fun r => xs.foldlM f r) (xs.flatMap reports) := by
  induction xs with
  | nil => exact nothing
  | cons x xs ih =>
    have hx := h x List.mem_cons_self
    have hxs := ih fun y hy => h y (List.mem_cons_of_mem x hy)
    exact hx.comp hxs

theorem report (path : Path) (kind : Violation.Kind) (value : Option Json) (place : Path) :
    Performs A d P (fun r => some (r.report path kind value place))
      [⟨path, kind, some ⟨value, d, place⟩⟩] := by
  intro r _ hd
  refine ⟨[], ?_, List.forall_mem_nil _⟩
  show some (r.report path kind value place) = _
  rw [GuardedRun.report, hd, r.add_eq]

theorem note {e : Event} (he : P e) : Performs A d P (fun r => some (r.note e)) [] := by
  intro r _ _
  refine ⟨[e], ?_, ?_⟩
  · show some (r.note e) = _
    rw [r.note_eq]
  · intro e' h
    rw [List.mem_singleton.mp h]
    exact he

theorem demand (holds : Bool) (path : Path) (kind : Violation.Kind) (v : Json) (place : Path) :
    Performs A d P (fun r => some (r.demand holds path kind v place))
      (if holds then [] else [⟨path, kind, some ⟨some v, d, place⟩⟩]) := by
  cases holds with
  | true => exact nothing
  | false => exact report path kind (some v) place

end Performs

/-! ## Probes and the guard -/

namespace GuardedRun

variable (r : GuardedRun) (vs : List Violation) (es : List Event)

theorem quietSince_after : (r.after vs es).quietSince r = vs.isEmpty := by
  rw [quietSince, count_after]
  cases vs <;> simp

theorem quietSince_suspend_after : (r.suspend.after vs es).quietSince r = vs.isEmpty := by
  rw [quietSince, count_after, suspend]
  cases vs <;> simp

/-- Rewinding drops the reports that were made while the state was suspended. -/
theorem rewind_suspend_after : (r.suspend.after vs es).rewind r = r.after [] es := by
  simp only [rewind, after, suspend, Nat.add_eq_zero_iff, Nat.one_ne_zero, and_false, if_false,
    List.take_length, Nat.add_sub_cancel]
  by_cases hs : r.suspended = 0
  · simp only [hs, if_true, Tally.reportAll, List.foldl_nil]
  · simp only [hs, if_false, List.length_nil, Nat.add_zero]

/-- A target that is left is active no more, and nothing else has changed. -/
theorem leave_enter_after (k : Target) (path : Path) :
    ((r.enter k path).after vs es).leave k path = r.after vs es := by
  rw [leave, after, enter, after]
  simp only [List.erase_cons_head]

end GuardedRun

section Combined

variable {A : List (Target × Path)} {d : Option Json} {P : Event → Prop}
  {check : GuardedRun → Option GuardedRun} {vs : List Violation} {r : GuardedRun}

/-- A probe tells whether its check reports nothing, and keeps none of the reports. -/
theorem probe_of_performs (h : Performs A d P check vs) (hA : r.active = A)
    (hd : r.declaredType = d) :
    ∃ es, r.probe check = some (vs.isEmpty, r.after [] es) ∧ ∀ e ∈ es, P e := by
  obtain ⟨es, hc, he⟩ := h r.suspend hA hd
  refine ⟨es, ?_, he⟩
  rw [GuardedRun.probe, hc, ← r.rewind_suspend_after vs, ← r.quietSince_suspend_after vs es]
  rfl

theorem watch_of_performs (h : Performs A d P check vs) (hA : r.active = A)
    (hd : r.declaredType = d) :
    ∃ es, r.watch check = some (vs.isEmpty, r.after vs es) ∧ ∀ e ∈ es, P e := by
  obtain ⟨es, hc, he⟩ := h r hA hd
  refine ⟨es, ?_, he⟩
  rw [GuardedRun.watch, hc, ← r.quietSince_after vs es]
  rfl

/-- A target that is active already passes at once. -/
theorem guarded_of_mem {k : Target} {path : Path} {v : Json}
    {body : GuardedRun → Option (Bool × GuardedRun)} (hk : (k, path) ∈ r.active) :
    r.guarded k path v body =
      some (true, r.after [] [.question ⟨k, path, v, r.active, false, true⟩]) := by
  rw [GuardedRun.guarded, if_pos hk, r.note_eq]

/-- A target that is not active yet runs while it is, and the set is as before when it is done. -/
theorem guarded_of_not_mem {k : Target} {path : Path} {v : Json} {passed : Bool}
    {es : List Event} {body : GuardedRun → Option (Bool × GuardedRun)} (hk : (k, path) ∉ r.active)
    (hb : body (r.enter k path) = some (passed, (r.enter k path).after vs es)) :
    r.guarded k path v body =
      some (passed, r.after vs (es ++ [.question ⟨k, path, v, r.active, true, passed⟩])) := by
  have hnote := (r.after vs es).note_eq (.question ⟨k, path, v, r.active, true, passed⟩)
  rw [r.after_after, List.append_nil] at hnote
  rw [GuardedRun.guarded, if_neg hk, hb, ← hnote, ← r.leave_enter_after vs es k path]
  rfl

end Combined

end JsonSchema
