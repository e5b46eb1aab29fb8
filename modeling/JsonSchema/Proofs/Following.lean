import JsonSchema.Proofs.Changer
import JsonSchema.Proofs.OneGuard

/-!
# What a run adds to its state

A step of a run leaves the probes around it, the declared type, the active targets and the recording
as it found them, and drops nothing that was recorded. One step follows another one if it does the
same from any other state: what it adds depends on the active targets alone.

* `GuardedRun.Grows`: a state that has only grown;
* `Moved`: pairs that are active at two places of a value alike;
* `follows`: a step that ends when another one does, with the same result and as many reports;
* `Adds`: a step that always adds as much;
* `follows_probing`, `follows_guarding`, ...: how steps that follow one another combine.
-/

namespace JsonSchema

/-! ## States that grow -/

/-- A state has counted `n` more violations and kept them if it records and is not suspended.
Everything else is as before. -/
structure GuardedRun.Grows (r r' : GuardedRun) (n : Nat) : Prop where
  suspended : r'.suspended = r.suspended
  declaredType : r'.declaredType = r.declaredType
  active : r'.active = r.active
  recording : r'.tally.recording = r.tally.recording
  count : r'.tally.count = r.tally.count + n
  records : ∃ ws, r'.tally.records = r.tally.records ++ ws ∧
    ws.length = if r.tally.recording ≠ .off ∧ r.suspended = 0 then n else 0

theorem Tally.recording_reportAll (t : Tally) (vs : List Violation) :
    (t.reportAll vs).recording = t.recording := by
  induction vs generalizing t with
  | nil => rfl
  | cons v vs ih => exact ih (t.report v)

theorem Tally.length_keep (recording : Recording) (vs : List Violation) :
    (vs.flatMap (keep recording)).length = if recording ≠ .off then vs.length else 0 := by
  induction vs with
  | nil => simp
  | cons v vs ih =>
    rw [List.flatMap_cons, List.length_append, ih, List.length_cons]
    cases recording with
    | off => simp [keep]
    | brief | verbose =>
      simp [keep]
      omega

namespace GuardedRun

variable {r r' r'' : GuardedRun} {n k : Nat}

theorem grows_after (r : GuardedRun) (vs : List Violation) (es : List Event) :
    r.Grows (r.after vs es) vs.length := by
  refine ⟨rfl, rfl, rfl, ?_, r.count_after vs es, ?_⟩
  · rw [after]
    split
    · exact r.tally.recording_reportAll vs
    · rfl
  · by_cases hs : r.suspended = 0
    · refine ⟨vs.flatMap (Tally.keep r.tally.recording), ?_, ?_⟩
      · simp only [after, hs, if_true]
        exact r.tally.records_reportAll vs
      · simp only [hs, and_true]
        exact Tally.length_keep r.tally.recording vs
    · exact ⟨[], by simp [after, hs], by simp [hs]⟩

namespace Grows

theorem nothing (r : GuardedRun) : r.Grows r 0 := by
  have h := r.grows_after [] []
  rwa [r.after_nil] at h

theorem note (h : r.Grows r' n) (e : Event) : r.Grows (r'.note e) n :=
  ⟨h.suspended, h.declaredType, h.active, h.recording, h.count, h.records⟩

theorem trans (h : r.Grows r' n) (h' : r'.Grows r'' k) : r.Grows r'' (n + k) := by
  obtain ⟨ws, hr, hws⟩ := h.records
  obtain ⟨ws', hr', hws'⟩ := h'.records
  rw [h.recording, h.suspended] at hws'
  refine ⟨h'.suspended.trans h.suspended, h'.declaredType.trans h.declaredType,
    h'.active.trans h.active, h'.recording.trans h.recording, ?_, ws ++ ws', ?_, ?_⟩
  · rw [h'.count, h.count, Nat.add_assoc]
  · rw [hr', hr, List.append_assoc]
  · rw [List.length_append, hws, hws']
    split <;> rfl

theorem report (r : GuardedRun) (path : Path) (kind : Violation.Kind) (value : Option Json)
    (place : Path) : r.Grows (r.report path kind value place) 1 := by
  rw [GuardedRun.report, r.add_eq]
  exact r.grows_after [_] []

/-- Nothing is left of what was counted on the side. -/
theorem rewind (h : r.suspend.Grows r' n) : r.Grows (r'.rewind r) 0 := by
  obtain ⟨ws, hr, hws⟩ := h.records
  have hlen : ws.length = 0 := by rw [hws, suspend, if_neg (by simp)]
  have hsuspended : r'.suspended = r.suspended + 1 := h.suspended
  refine ⟨?_, h.declaredType, h.active, h.recording, rfl, [], ?_, ?_⟩
  · rw [GuardedRun.rewind, hsuspended, Nat.add_sub_cancel]
  · rw [GuardedRun.rewind, hr, List.append_nil]
    exact List.take_left
  · split <;> rfl

theorem quietSince_suspend (h : r.suspend.Grows r' n) : r'.quietSince r = (n == 0) := by
  have hcount : r'.tally.count = r.tally.count + n := h.count
  rw [GuardedRun.quietSince, hcount]
  simp

theorem quietSince (h : r.Grows r' n) : r'.quietSince r = (n == 0) := by
  rw [GuardedRun.quietSince, h.count]
  simp

/-- A target that is left again is the only one that had been entered. -/
theorem leave {k : Target} {path : Path} (h : (r.enter k path).Grows r' n) :
    r.Grows (r'.leave k path) n := by
  refine ⟨h.suspended, h.declaredType, ?_, h.recording, h.count, h.records⟩
  have hactive : r'.active = (k, path) :: r.active := h.active
  simp only [GuardedRun.leave, hactive, List.erase_cons_head]

end Grows

/-! ## Steps -/

/-- A step of a run that hands on nothing. -/
def step (f : GuardedRun → Option GuardedRun) : StateT GuardedRun Option Unit := fun r => do
  return ((), ← f r)

/-- Report a value unless a condition holds. -/
def demanding (holds : Bool) (path : Path) (kind : Violation.Kind) (v : Json) (place : Path) :
    StateT GuardedRun Option Unit := fun r =>
  some ((), r.demand holds path kind v place)

/-- Take a step on the side, and tell whether it passed. -/
def probing {α : Type} (f : StateT GuardedRun Option α) : StateT GuardedRun Option (Bool × α) :=
  fun r => do
    let (a, r') ← f r.suspend
    return ((r'.quietSince r, a), r'.rewind r)

def watching {α : Type} (f : StateT GuardedRun Option α) : StateT GuardedRun Option (Bool × α) :=
  fun r => do
    let (a, r') ← f r
    return ((r'.quietSince r, a), r')

/-- Take a step while a target is active at a path, unless it is already. -/
def guarding {α : Type} (k : Target) (path : Path) (v : Json) (a : α)
    (f : StateT GuardedRun Option (Bool × α)) : StateT GuardedRun Option (Bool × α) := fun r =>
  if (k, path) ∈ r.active then
    some ((true, a), r.note (.question ⟨k, path, v, r.active, false, true⟩))
  else do
    let (y, r') ← f (r.enter k path)
    return (y, (r'.leave k path).note (.question ⟨k, path, v, r.active, true, y.1⟩))

end GuardedRun

open GuardedRun (Grows step demanding probing watching guarding under)

/-! ## Steps from two states -/

/-- The same pairs are active at a value and below, when it is moved from one path to another. -/
def Moved (A₁ : List (Target × Path)) (p₁ : Path) (A₂ : List (Target × Path)) (p₂ : Path) : Prop :=
  ∀ k q, (k, p₁ ++ q) ∈ A₁ ↔ (k, p₂ ++ q) ∈ A₂

namespace Moved

variable {A₁ A₂ : List (Target × Path)} {p₁ p₂ : Path}

theorem refl (A : List (Target × Path)) (p : Path) : Moved A p A p := fun _ _ => Iff.rfl

theorem mem_iff (h : Moved A₁ p₁ A₂ p₂) (k : Target) : (k, p₁) ∈ A₁ ↔ (k, p₂) ∈ A₂ := by
  have := h k []
  rwa [List.append_nil, List.append_nil] at this

theorem below (h : Moved A₁ p₁ A₂ p₂) (p : Path) : Moved A₁ (p₁ ++ p) A₂ (p₂ ++ p) := by
  intro k q
  rw [List.append_assoc, List.append_assoc]
  exact h k (p ++ q)

theorem enter (h : Moved A₁ p₁ A₂ p₂) (k : Target) :
    Moved ((k, p₁) :: A₁) p₁ ((k, p₂) :: A₂) p₂ := by
  intro k' q
  have hq : ∀ p : Path, p ++ q = p ↔ q = [] := by simp
  simp only [List.mem_cons, Prod.mk.injEq, hq, h k' q]

end Moved

/-- A step follows another one if it ends when that does, with the same result and as many
reports, from all states with the given active targets. -/
def follows (A₁ A₂ : List (Target × Path)) :
    Alike (StateT GuardedRun Option) (StateT GuardedRun Option) where
  results := True
  rel f₁ f₂ := ∀ r₁ r₂ : GuardedRun, r₁.active = A₁ → r₂.active = A₂ → ∀ a r₁',
    f₁ r₁ = some (a, r₁') → ∃ n r₂', r₁.Grows r₁' n ∧ f₂ r₂ = some (a, r₂') ∧ r₂.Grows r₂' n
  pure := by
    intro α a b hab r₁ r₂ _ _ c r₁' hr
    cases hr
    cases hab trivial
    exact ⟨0, r₂, Grows.nothing r₁, rfl, Grows.nothing r₂⟩
  bind := by
    intro α β x y f g hxy hfg r₁ r₂ h₁ h₂ c r₁' hr
    obtain ⟨⟨a, s₁⟩, hx, hf⟩ := Option.bind_eq_some_iff.mp hr
    obtain ⟨n, s₂, hs₁, hy, hs₂⟩ := hxy r₁ r₂ h₁ h₂ a s₁ hx
    obtain ⟨k, r₂', hr₁, hg, hr₂⟩ := hfg a a (fun _ => rfl) s₁ s₂ (hs₁.active.trans h₁)
      (hs₂.active.trans h₂) c r₁' hf
    refine ⟨n + k, r₂', hs₁.trans hr₁, ?_, hs₂.trans hr₂⟩
    show (y r₂ >>= fun z => g z.1 z.2) = _
    rw [hy]
    exact hg

section Steps

variable {A₁ A₂ : List (Target × Path)} {p₁ p₂ : Path} {α : Type}
  {f₁ f₂ : StateT GuardedRun Option α}

/-- A step that always hands on the same and adds as much. -/
def Adds (f : StateT GuardedRun Option α) (a : α) (n : Nat) : Prop :=
  ∀ r, ∃ r', f r = some (a, r') ∧ r.Grows r' n

theorem Adds.follows {a : α} {n : Nat} (h₁ : Adds f₁ a n) (h₂ : Adds f₂ a n) :
    (follows A₁ A₂).rel f₁ f₂ := by
  intro r₁ r₂ _ _ b r₁' hr
  obtain ⟨s₁, hf₁, hs₁⟩ := h₁ r₁
  obtain ⟨s₂, hf₂, hs₂⟩ := h₂ r₂
  cases hf₁.symm.trans hr
  exact ⟨n, s₂, hs₁, hf₂, hs₂⟩

theorem adds_note (e : Event) : Adds (fun r => some ((), r.note e)) () 0 :=
  fun r => ⟨_, rfl, (Grows.nothing r).note e⟩

theorem adds_report (path : Path) (kind : Violation.Kind) (value : Option Json) (place : Path) :
    Adds (fun r => some ((), r.report path kind value place)) () 1 :=
  fun r => ⟨_, rfl, Grows.report r path kind value place⟩

theorem adds_demand (holds : Bool) (path : Path) (kind : Violation.Kind) (v : Json)
    (place : Path) : Adds (demanding holds path kind v place) () (if holds then 0 else 1) := by
  cases holds with
  | true => exact fun r => ⟨r, rfl, Grows.nothing r⟩
  | false => exact fun r => ⟨_, rfl, Grows.report r path kind (some v) place⟩

theorem adds_checkAbsent (h : Heading) (path : Path) :
    Adds (fun r => some ((), r.checkAbsent h path)) ()
      (if h.required && h.default.isNone then 1 else 0) := by
  intro r
  refine ⟨_, rfl, ?_⟩
  rw [GuardedRun.checkAbsent]
  split
  · have hreport := Grows.report { r with declaredType := h.declaredType } path .required none
      (h.place "required")
    exact ⟨hreport.suspended, rfl, hreport.active, hreport.recording, hreport.count,
      hreport.records⟩
  · exact Grows.nothing r

theorem adds_reportMissing (h : Heading) (v : Json) (path : Path) :
    Adds (fun r => some ((), r.reportMissing h v path)) () (h.missing v).length := by
  intro r
  refine ⟨_, rfl, ?_⟩
  rw [GuardedRun.reportMissing]
  generalize h.missing v = names
  induction names generalizing r with
  | nil => exact Grows.nothing r
  | cons name names ih =>
    rw [List.foldl_cons, List.length_cons, Nat.add_comm]
    exact (Grows.report r _ _ _ _).trans (ih _)

/-- A step under a declared type follows one under another. -/
theorem follows_under (h : (follows A₁ A₂).rel f₁ f₂) (d₁ d₂ : Option Json) :
    (follows A₁ A₂).rel (under d₁ f₁) (under d₂ f₂) := by
  intro r₁ r₂ h₁ h₂ a r₁' hr
  obtain ⟨⟨b, s₁⟩, hf, hr⟩ := Option.bind_eq_some_iff.mp hr
  cases hr
  obtain ⟨n, s₂, hs₁, hf₂, hs₂⟩ := h { r₁ with declaredType := d₁ } { r₂ with declaredType := d₂ }
    h₁ h₂ a s₁ hf
  refine ⟨n, { s₂ with declaredType := r₂.declaredType }, ?_, ?_, ?_⟩
  · exact ⟨hs₁.suspended, rfl, hs₁.active, hs₁.recording, hs₁.count, hs₁.records⟩
  · rw [under, hf₂]
    rfl
  · exact ⟨hs₂.suspended, rfl, hs₂.active, hs₂.recording, hs₂.count, hs₂.records⟩

theorem follows_probing (h : (follows A₁ A₂).rel f₁ f₂) :
    (follows A₁ A₂).rel (probing f₁) (probing f₂) := by
  intro r₁ r₂ h₁ h₂ a r₁' hr
  obtain ⟨⟨b, s₁⟩, hf, hr⟩ := Option.bind_eq_some_iff.mp hr
  cases hr
  obtain ⟨n, s₂, hs₁, hf₂, hs₂⟩ := h r₁.suspend r₂.suspend h₁ h₂ b s₁ hf
  refine ⟨0, s₂.rewind r₂, hs₁.rewind, ?_, hs₂.rewind⟩
  rw [probing, hf₂, hs₁.quietSince_suspend, ← hs₂.quietSince_suspend]
  rfl

theorem follows_watching (h : (follows A₁ A₂).rel f₁ f₂) :
    (follows A₁ A₂).rel (watching f₁) (watching f₂) := by
  intro r₁ r₂ h₁ h₂ a r₁' hr
  obtain ⟨⟨b, s₁⟩, hf, hr⟩ := Option.bind_eq_some_iff.mp hr
  cases hr
  obtain ⟨n, s₂, hs₁, hf₂, hs₂⟩ := h r₁ r₂ h₁ h₂ b _ hf
  refine ⟨n, s₂, hs₁, ?_, hs₂⟩
  rw [watching, hf₂, hs₁.quietSince, ← hs₂.quietSince]
  rfl

theorem follows_guarding {k : Target} {v₁ v₂ : Json} {a : α}
    {f₁ f₂ : StateT GuardedRun Option (Bool × α)} (hm : Moved A₁ p₁ A₂ p₂)
    (h : (follows ((k, p₁) :: A₁) ((k, p₂) :: A₂)).rel f₁ f₂) :
    (follows A₁ A₂).rel (guarding k p₁ v₁ a f₁) (guarding k p₂ v₂ a f₂) := by
  rintro r₁ r₂ rfl rfl b r₁' hr
  by_cases hk : (k, p₁) ∈ r₁.active
  · simp only [guarding, hk, if_true] at hr
    cases hr
    simp only [guarding, (hm.mem_iff k).mp hk, if_true]
    exact ⟨0, _, (Grows.nothing r₁).note _, rfl, (Grows.nothing r₂).note _⟩
  · simp only [guarding, hk, if_false] at hr
    obtain ⟨⟨c, s₁⟩, hf, hr⟩ := Option.bind_eq_some_iff.mp hr
    cases hr
    obtain ⟨n, s₂, hs₁, hf₂, hs₂⟩ := h (r₁.enter k p₁) (r₂.enter k p₂) rfl rfl _ s₁ hf
    simp only [guarding, mt (hm.mem_iff k).mpr hk, if_false, hf₂]
    exact ⟨n, _, hs₁.leave.note _, rfl, hs₂.leave.note _⟩

theorem follows_spend {b₁ b₂ : Nat} (hb : b₁ ≤ b₂)
    {body₁ body₂ : Nat → StateT GuardedRun Option α}
    (h : ∀ rest₁ rest₂, rest₁ < b₁ → rest₁ ≤ rest₂ →
      (follows A₁ A₂).rel (body₁ rest₁) (body₂ rest₂)) :
    (follows A₁ A₂).rel (fun r => spend b₁ fun rest _ => body₁ rest r)
      (fun r => spend b₂ fun rest _ => body₂ rest r) := by
  intro r₁ r₂ h₁ h₂ a r₁' hr
  cases b₁ with
  | zero => cases hr
  | succ rest₁ =>
    obtain ⟨rest₂, rfl⟩ : ∃ rest, b₂ = rest + 1 := ⟨b₂ - 1, by omega⟩
    exact h rest₁ rest₂ (Nat.lt_succ_self _) (by omega) r₁ r₂ h₁ h₂ a r₁' hr

end Steps

end JsonSchema
