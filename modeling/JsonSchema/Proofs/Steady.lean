import JsonSchema.Proofs.Following

/-!
# Runs from two states

What a run adds depends on the active targets alone, and on these no further than they concern the
value and its parts. So from any two states, and at any two places of the value, a run of a node
follows the same run, and so does a run that changes the value. A larger budget changes nothing.

* `Check.step_reference`, `Check.step_direct`, `Node.step_run`, ...: runs as steps;
* `Node.run_follows`, `Node.change_follows`: the run from another state.
-/

namespace JsonSchema

open GuardedRun (step demanding probing watching guarding under)

/-! ## Runs as steps -/

section Runs

variable {s : Scope} {n m : Node} {v : Json} {path : Path} {budget : Nat}

theorem Check.step_reference {text : String} {place : Path}
    (hm : s.subroutines.lookup (.reference text) = some m) :
    step ((reference text place).run s budget n v path) = (do
      let y ← guarding (.reference text) path v () fun r =>
        spend budget fun rest _ => probing (step (m.run s rest v path)) r
      demanding y.1 path .reference v place) := by
  funext r
  simp only [step, run, hm, GuardedRun.guarded, guarding, bind, StateT.bind]
  by_cases hk : (Target.reference text, path) ∈ r.active
  · simp only [hk, if_true]
    rfl
  · simp only [hk, if_false]
    cases budget with
    | zero => rfl
    | succ rest =>
      simp only [spend, GuardedRun.probe, probing, step]
      cases m.run s rest v path (r.enter (.reference text) path).suspend <;> rfl

theorem Check.step_schemaFormat {name : String}
    (hm : s.subroutines.lookup (.format name) = some m) :
    step ((schemaFormat name).run s budget n v path) = (do
      let _ ← guarding (.format name) path v () fun r =>
        spend budget fun rest _ => watching (step (m.run s rest v path)) r
      return ()) := by
  funext r
  simp only [step, run, hm, GuardedRun.guarded, guarding, bind, StateT.bind]
  by_cases hk : (Target.format name, path) ∈ r.active
  · simp only [hk, if_true]
    rfl
  · simp only [hk, if_false]
    cases budget with
    | zero => rfl
    | succ rest =>
      simp only [spend, GuardedRun.watch, watching, step]
      cases m.run s rest v path (r.enter (.format name) path) <;> rfl

/-- Probe a nested node on the value itself. -/
def Node.probed (s : Scope) (budget : Nat) (n : Node) (v : Json) (path : Path) (m : Node) :
    StateT GuardedRun Option Bool := fun r =>
  (r.note (.nested n m)).probe fun r => m.run s budget v path r

theorem Check.step_negation {place : Path} :
    step ((negation m place).run s budget n v path) = (do
      let passed ← n.probed s budget v path m
      demanding (!passed) path .not v place) := by
  funext r
  simp only [step, run, Node.probed, bind, StateT.bind]
  cases (r.note (.nested n m)).probe fun r => m.run s budget v path r <;> rfl

theorem Check.step_anyOf {ns : List Node} {place : Path} :
    step ((anyOf ns place).run s budget n v path) = (do
      let found ← ns.foldlM (fun found m =>
        if found then pure true else n.probed s budget v path m) false
      demanding found path .anyOf v place) := by
  funext r
  have hnode : ∀ (y : Bool × GuardedRun) m, (if y.1 = true then some (true, y.2)
      else (y.2.note (.nested n m)).probe fun r => m.run s budget v path r) =
        (if y.1 = true then pure true else n.probed s budget v path m :
          StateT GuardedRun Option Bool) y.2 := by
    intro y m
    split <;> rfl
  have hfold := foldlM_thread (fun found m =>
    if found then pure true else n.probed s budget v path m) ns false r
  simp only [← hnode] at hfold
  rw [step, run, bind_assoc]
  exact congrArg (fun y => y >>= fun y => some ((), y.2.demand y.1 path .anyOf v place)) hfold

theorem Check.step_oneOf {ns : List Node} {place : Path} :
    step ((oneOf ns place).run s budget n v path) = (do
      let passes ← ns.foldlM (fun passes m => do
        return passes + (← n.probed s budget v path m).toNat) 0
      demanding (passes == 1) path .oneOf v place) := by
  funext r
  have hfold := foldlM_thread (fun passes m => do
    return passes + (← n.probed s budget v path m).toNat) ns 0 r
  rw [step, run, bind_assoc]
  exact congrArg
    (fun y => y >>= fun y => some ((), y.2.demand (y.1 == 1) path .oneOf v place)) hfold

theorem step_foldlM {α : Type} (f : GuardedRun → α → Option GuardedRun) (xs : List α) :
    step (fun r => xs.foldlM f r) = xs.foldlM (fun _ x => step fun r => f r x) () := by
  funext r
  induction xs generalizing r with
  | nil => rfl
  | cons x xs ih =>
    simp only [step, List.foldlM_cons, bind, StateT.bind] at ih ⊢
    cases h : f r x with
    | none => rfl
    | some r' => exact ih r'

theorem Check.step_direct {c : Check} (hc : c.direct = true) :
    step (c.run s budget n v path) =
      (c.actions v path).foldlM (fun _ a => step fun r => a.runIn s budget n path r) () := by
  rw [← step_foldlM]
  congr 1
  funext r
  exact c.run_direct (p := ⟨path, []⟩) hc r

theorem Node.step_run (h : Heading) (head tail : List Check) :
    step ((mk h head tail).run s budget v path) = under h.declaredType (
      if h.acceptsType v then do
        head.foldlM (fun _ c => step (c.run s budget (mk h head tail) v path)) ()
        step fun r => some (r.reportMissing h v path)
        if h.missing v = [] ∨ s.greedy = true then
          tail.foldlM (fun _ c => step (c.run s budget (mk h head tail) v path)) ()
        else pure ()
      else step fun r => some (r.report path .type (some v) (h.place "type"))) := by
  funext r
  simp only [← step_foldlM]
  rw [step, run, under]
  by_cases ht : h.acceptsType v = true
  · simp only [ht, if_true, bind, StateT.bind, step]
    cases head.foldlM (fun r c => c.run s budget (mk h head tail) v path r)
      { r with declaredType := h.declaredType } with
    | none => rfl
    | some r' =>
      by_cases hm : h.missing v = [] ∨ s.greedy = true
      · simp only [hm, if_true, step, Option.pure_def, Option.bind_eq_bind, Option.bind_some]
        cases tail.foldlM (fun r c => c.run s budget (mk h head tail) v path r)
          (r'.reportMissing h v path) with
        | none => rfl
        | some _ => rfl
      · simp only [hm, if_false]
        rfl
  · simp only [ht]
    rfl

/-! ## Runs from two states -/

/-- Two actions that differ in what they report at most. -/
inductive Action.Same : Action → Action → Prop
  | report (kind kind' : Violation.Kind) (value value' : Option Json) (place place' : Path) :
      Same (.report kind value place) (.report kind' value' place')
  | refl (a : Action) : Same a a

theorem Check.actions_same (c : Check) (v : Json) (p₁ p₂ : Path) :
    List.Forall₂ Action.Same (c.actions v p₁) (c.actions v p₂) := by
  cases c with
  | closed declared place =>
    cases v with
    | object ms =>
      rw [actions, actions, List.forall₂_map_left_iff, List.forall₂_map_right_iff]
      exact List.forall₂_same.mpr fun e _ => .report ..
    | _ => exact .nil
  | _ => cases v <;> exact List.forall₂_same.mpr fun a _ => .refl a

theorem Node.probed_eq :
    n.probed s budget v path m = (do
      step fun r => some (r.note (.nested n m))
      let y ← probing (step (m.run s budget v path))
      return y.1) := by
  funext r
  simp only [probed, GuardedRun.probe, probing, step, bind, StateT.bind, Option.pure_def,
    Option.bind_some]
  cases m.run s budget v path (r.note (.nested n m)).suspend <;> rfl

end Runs

section Follows

variable {s : Scope} {A₁ A₂ : List (Target × Path)} {p₁ p₂ : Path} {b₁ b₂ : Nat}

theorem Node.probed_follows {n m : Node} {v : Json}
    (h : (follows A₁ A₂).rel (step (m.run s b₁ v p₁)) (step (m.run s b₂ v p₂))) :
    (follows A₁ A₂).rel (n.probed s b₁ v p₁ m) (n.probed s b₂ v p₂ m) := by
  rw [probed_eq, probed_eq]
  refine (follows A₁ A₂).bind ((adds_note _).follows (adds_note _)) fun _ _ _ => ?_
  exact (follows A₁ A₂).map (follows_probing h) Prod.fst

theorem follows_demanding {α : Type} {x y : StateT GuardedRun Option α}
    (h : (follows A₁ A₂).rel x y) (f : α → Bool) (kind : Violation.Kind) (v : Json)
    (place : Path) : (follows A₁ A₂).rel (x >>= fun a => demanding (f a) p₁ kind v place)
      (y >>= fun a => demanding (f a) p₂ kind v place) := by
  refine (follows A₁ A₂).bind h fun a b hab => ?_
  rw [hab True.intro]
  exact (adds_demand _ p₁ kind v place).follows (adds_demand _ p₂ kind v place)

section Checks

variable {n : Node} {v : Json}

theorem Check.reference_follows {text : String} {place : Path} (hA : Moved A₁ p₁ A₂ p₂)
    (hb : b₁ ≤ b₂)
    (target : ∀ rest₁ rest₂, rest₁ < b₁ → rest₁ ≤ rest₂ → ∀ (m : Node) A₁ A₂,
      Moved A₁ p₁ A₂ p₂ → (follows A₁ A₂).rel (step (m.run s rest₁ v p₁))
        (step (m.run s rest₂ v p₂))) :
    (follows A₁ A₂).rel (step ((reference text place).run s b₁ n v p₁))
      (step ((reference text place).run s b₂ n v p₂)) := by
  cases hm : s.subroutines.lookup (.reference text) with
  | none =>
    have hrun : ∀ b p, (reference text place).run s b n v p = some := by
      intro b p
      funext r
      simp only [run, hm]
    rw [hrun, hrun]
    exact (follows A₁ A₂).same ()
  | some m =>
    rw [step_reference hm, step_reference hm]
    refine follows_demanding (follows_guarding hA (follows_spend hb ?_)) (fun y => y.1) _ _ _
    intro rest₁ rest₂ h₁ h₂
    exact follows_probing (target rest₁ rest₂ h₁ h₂ m _ _ (hA.enter _))

theorem Check.schemaFormat_follows {name : String} (hA : Moved A₁ p₁ A₂ p₂) (hb : b₁ ≤ b₂)
    (target : ∀ rest₁ rest₂, rest₁ < b₁ → rest₁ ≤ rest₂ → ∀ (m : Node) A₁ A₂,
      Moved A₁ p₁ A₂ p₂ → (follows A₁ A₂).rel (step (m.run s rest₁ v p₁))
        (step (m.run s rest₂ v p₂))) :
    (follows A₁ A₂).rel (step ((schemaFormat name).run s b₁ n v p₁))
      (step ((schemaFormat name).run s b₂ n v p₂)) := by
  cases hm : s.subroutines.lookup (.format name) with
  | none =>
    have hrun : ∀ b p, (schemaFormat name).run s b n v p = some := by
      intro b p
      funext r
      simp only [run, hm]
    rw [hrun, hrun]
    exact (follows A₁ A₂).same ()
  | some m =>
    rw [step_schemaFormat hm, step_schemaFormat hm]
    refine (follows A₁ A₂).bind (follows_guarding hA (follows_spend hb ?_)) fun _ _ _ =>
      (follows A₁ A₂).same ()
    intro rest₁ rest₂ h₁ h₂
    exact follows_watching (target rest₁ rest₂ h₁ h₂ m _ _ (hA.enter _))

/-- The steps of a check without verdicts are the same on both sides, up to places. -/
theorem Check.direct_follows {c : Check} (hc : c.direct = true)
    (nested : ∀ m ∈ c.nodes, ∀ w (below : Option Segment), (follows A₁ A₂).rel
      (step (m.run s b₁ w (p₁ ++ below.toList))) (step (m.run s b₂ w (p₂ ++ below.toList)))) :
    (follows A₁ A₂).rel (step (c.run s b₁ n v p₁)) (step (c.run s b₂ n v p₂)) := by
  rw [step_direct hc, step_direct hc]
  refine (follows A₁ A₂).foldlM True.intro ?_ ()
  have hvisit : ∀ m w below, .visit m w below ∈ c.actions v p₁ → m ∈ c.nodes := by
    intro m w below ha
    rcases mem_of_visit ha with ⟨-, -, hm⟩ | ⟨-, -, hm⟩
    · exact List.mem_append_left _ hm
    · exact List.mem_append_right _ hm
  have hsame := List.forall₂_and_left (p := (· ∈ c.actions v p₁)) _ _ |>.mpr
    ⟨fun _ => id, c.actions_same v p₁ p₂⟩
  refine hsame.imp fun a b h u => ?_
  obtain ⟨ha, hab⟩ := h
  cases hab with
  | report => exact (adds_report _ _ _ _).follows (adds_report _ _ _ _)
  | refl =>
    cases a with
    | report => exact (adds_report _ _ _ _).follows (adds_report _ _ _ _)
    | absent h seg => exact (adds_checkAbsent h _).follows (adds_checkAbsent h _)
    | visit m w below =>
      refine (follows A₁ A₂).bind (x := step fun r => some (r.note (.nested n m)))
        (y := step fun r => some (r.note (.nested n m)))
        (f := fun _ => step (m.run s b₁ w (p₁ ++ below.toList)))
        (g := fun _ => step (m.run s b₂ w (p₂ ++ below.toList)))
        ((adds_note _).follows (adds_note _)) fun _ _ _ => ?_
      exact nested m (hvisit m w below ha) w below

theorem Check.run_follows {c : Check} (hA : Moved A₁ p₁ A₂ p₂) (hb : b₁ ≤ b₂)
    (nested : ∀ m ∈ c.nodes, ∀ w (below : Option Segment), (follows A₁ A₂).rel
      (step (m.run s b₁ w (p₁ ++ below.toList))) (step (m.run s b₂ w (p₂ ++ below.toList))))
    (target : ∀ rest₁ rest₂, rest₁ < b₁ → rest₁ ≤ rest₂ → ∀ (m : Node) A₁ A₂,
      Moved A₁ p₁ A₂ p₂ → (follows A₁ A₂).rel (step (m.run s rest₁ v p₁))
        (step (m.run s rest₂ v p₂))) :
    (follows A₁ A₂).rel (step (c.run s b₁ n v p₁)) (step (c.run s b₂ n v p₂)) := by
  have here : ∀ m ∈ c.nodesHere, (follows A₁ A₂).rel (n.probed s b₁ v p₁ m)
      (n.probed s b₂ v p₂ m) := by
    intro m hm
    have h := nested m (List.mem_append_left _ hm) v none
    simp only [Option.toList_none, List.append_nil] at h
    exact Node.probed_follows h
  cases c using Check.byKind with
  | reference text place => exact reference_follows hA hb target
  | schemaFormat name => exact schemaFormat_follows hA hb target
  | negation m place =>
    rw [step_negation, step_negation]
    exact follows_demanding (here m (by simp [nodesHere])) (fun passed => !passed) _ _ _
  | anyOf ns place =>
    rw [step_anyOf, step_anyOf]
    refine follows_demanding ((follows A₁ A₂).foldlM True.intro ?_ false) (fun found => found) _ _ _
    refine List.forall₂_same.mpr fun m hm found => ?_
    cases found with
    | true => exact (follows A₁ A₂).same true
    | false => exact here m hm
  | oneOf ns place =>
    rw [step_oneOf, step_oneOf]
    refine follows_demanding ((follows A₁ A₂).foldlM True.intro ?_ 0) (fun passes => passes == 1)
      _ _ _
    exact List.forall₂_same.mpr fun m hm passes => (follows A₁ A₂).map (here m hm) _
  | direct c hc => exact direct_follows hc nested

end Checks

/-- A node whose run follows itself, from a state with the same pairs active at the value. -/
def Node.Steady (s : Scope) (budget : Nat) (n : Node) : Prop :=
  ∀ budget', budget ≤ budget' → ∀ A₁ A₂ p₁ p₂ v, Moved A₁ p₁ A₂ p₂ →
    (follows A₁ A₂).rel (step (n.run s budget v p₁)) (step (n.run s budget' v p₂))

theorem Node.steady_of_checks {n : Node} (hc : ∀ c ∈ n.checks, ∀ v, (follows A₁ A₂).rel
      (step (c.run s b₁ n v p₁)) (step (c.run s b₂ n v p₂))) (v : Json) :
    (follows A₁ A₂).rel (step (n.run s b₁ v p₁)) (step (n.run s b₂ v p₂)) := by
  obtain ⟨h, head, tail⟩ := n
  have hrun : ∀ cs : List Check, (∀ c ∈ cs, c ∈ (mk h head tail).checks) → (follows A₁ A₂).rel
      (cs.foldlM (fun _ c => step (c.run s b₁ (mk h head tail) v p₁)) ())
      (cs.foldlM (fun _ c => step (c.run s b₂ (mk h head tail) v p₂)) ()) :=
    fun cs hcs => (follows A₁ A₂).foldlM True.intro
      (List.forall₂_same.mpr fun c hmem _ => hc c (hcs c hmem) v) ()
  rw [step_run, step_run]
  refine follows_under ?_ _ _
  split
  · refine (follows A₁ A₂).bind (hrun head fun c => List.mem_append_left tail) fun _ _ _ => ?_
    refine (follows A₁ A₂).bind ((adds_reportMissing h v p₁).follows (adds_reportMissing h v p₂))
      fun _ _ _ => ?_
    split
    · exact hrun tail fun c => List.mem_append_right head
    · exact (follows A₁ A₂).same ()
  · exact (adds_report _ _ _ _).follows (adds_report _ _ _ _)

/-- **A run from another state follows the run**: with no smaller a budget, and with the same
pairs active at the value, it ends when the run does and reports as much. -/
theorem Node.run_follows (s : Scope) (budget : Nat) (n : Node) : n.Steady s budget := by
  induction budget using Nat.strong_induction_on generalizing n with
  | _ budget ih =>
    refine Node.induction (P := Node.Steady s budget) (Q := fun c => ∀ n budget',
      budget ≤ budget' → ∀ A₁ A₂ p₁ p₂ v, Moved A₁ p₁ A₂ p₂ → (follows A₁ A₂).rel
        (step (c.run s budget n v p₁)) (step (c.run s budget' n v p₂))) ?_ ?_ n
    · intro n hc budget' hb A₁ A₂ p₁ p₂ v hA
      exact Node.steady_of_checks (fun c hmem w => hc c hmem n budget' hb A₁ A₂ p₁ p₂ w hA) v
    · intro c hn n budget' hb A₁ A₂ p₁ p₂ v hA
      exact Check.run_follows hA hb
        (fun m hm w below => hn m hm budget' hb A₁ A₂ _ _ w (hA.below _))
        fun rest₁ rest₂ h₁ h₂ m A₁ A₂ hA => ih rest₁ h₁ m rest₂ h₂ A₁ A₂ p₁ p₂ v hA

theorem Check.run_steady (s : Scope) (n : Node) (c : Check) (v : Json) (hb : b₁ ≤ b₂)
    (hA : Moved A₁ p₁ A₂ p₂) :
    (follows A₁ A₂).rel (step (c.run s b₁ n v p₁)) (step (c.run s b₂ n v p₂)) :=
  Check.run_follows hA hb
    (fun m _ w _ => m.run_follows s b₁ b₂ hb A₁ A₂ _ _ w (hA.below _))
    fun rest₁ rest₂ _ h m A₁ A₂ hA => m.run_follows s rest₁ rest₂ h A₁ A₂ p₁ p₂ v hA

/-! ## Mutating runs from two states -/

theorem Check.change_reference {m : Changes} {n k : Node} {v : Json} {path : Path} {budget : Nat}
    {text : String} {place : Path} (hk : s.subroutines.lookup (.reference text) = some k) :
    (reference text place).change s m budget n v path = (do
      let y ← guarding (.reference text) path v v fun r =>
        spend budget fun rest _ => probing (k.change s m rest v path) r
      demanding y.1 path .reference y.2 place
      return y.2 : StateT GuardedRun Option Json) := by
  funext r
  simp only [change, hk, GuardedRun.guardedChange, guarding, bind, StateT.bind]
  by_cases hr : (Target.reference text, path) ∈ r.active
  · simp only [hr, if_true]
    rfl
  · simp only [hr, if_false]
    cases budget with
    | zero => rfl
    | succ rest =>
      simp only [spend, GuardedRun.probeChange, probing]
      cases k.change s m rest v path (r.enter (.reference text) path).suspend <;> rfl

theorem Check.change_schemaFormat {m : Changes} {n k : Node} {v : Json} {path : Path}
    {budget : Nat} {name : String} (hk : s.subroutines.lookup (.format name) = some k) :
    (schemaFormat name).change s m budget n v path = (do
      let y ← guarding (.format name) path v v fun r =>
        spend budget fun rest _ => watching (k.change s m rest v path) r
      return y.2 : StateT GuardedRun Option Json) := by
  funext r
  simp only [change, hk, GuardedRun.guardedChange, guarding, bind, StateT.bind]
  by_cases hr : (Target.format name, path) ∈ r.active
  · simp only [hr, if_true]
    rfl
  · simp only [hr, if_false]
    cases budget with
    | zero => rfl
    | succ rest =>
      simp only [spend, GuardedRun.watchChange, watching]
      cases k.change s m rest v path (r.enter (.format name) path) <;> rfl

theorem Check.changing_follows {m : Changes} {n : Node} {c : Check} (hA : Moved A₁ p₁ A₂ p₂)
    (hb : b₁ ≤ b₂)
    (nested : ∀ k ∈ c.nodes, ∀ w (below : Option Segment), (follows A₁ A₂).rel
      (k.change s m b₁ w (p₁ ++ below.toList)) (k.change s m b₂ w (p₂ ++ below.toList)))
    (target : ∀ rest₁ rest₂, rest₁ < b₁ → rest₁ ≤ rest₂ → ∀ (k : Node) A₁ A₂ v,
      Moved A₁ p₁ A₂ p₂ → (follows A₁ A₂).rel (k.change s m rest₁ v p₁)
        (k.change s m rest₂ v p₂)) :
    (follows A₁ A₂).Changers (changing s m b₁ n p₁) (changing s m b₂ n p₂) c := by
  have visit : ∀ k ∈ c.nodes, ∀ w below, (follows A₁ A₂).rel
      ((changing s m b₁ n p₁).visit k w below) ((changing s m b₂ n p₂).visit k w below) := by
    intro k hk w below
    exact (follows A₁ A₂).bind ((adds_note (.nested n k)).follows (adds_note (.nested n k)))
      fun _ _ _ => nested k hk w below
  constructor
  case here => exact fun k hk w => visit k (List.mem_append_left _ hk.mem_here) w none
  case below => exact fun k seg hk w => visit k (List.mem_append_right _ hk.mem_below) w (some seg)
  case reference =>
    rintro text place rfl v
    show (follows A₁ A₂).rel ((reference text place).change s m b₁ n v p₁)
      ((reference text place).change s m b₂ n v p₂)
    cases hk : s.subroutines.lookup (.reference text) with
    | none =>
      have hchange : ∀ b p, (reference text place).change s m b n v p = fun r => some (v, r) := by
        intro b p
        funext r
        simp only [change, hk]
      rw [hchange, hchange]
      exact (follows A₁ A₂).same v
    | some k =>
      rw [change_reference hk, change_reference hk]
      refine (follows A₁ A₂).bind (follows_guarding hA (follows_spend hb ?_)) fun y y' hy => ?_
      · intro rest₁ rest₂ h₁ h₂
        exact follows_probing (target rest₁ rest₂ h₁ h₂ k _ _ v (hA.enter _))
      · rw [hy True.intro]
        exact (follows A₁ A₂).bind ((adds_demand _ _ _ _ _).follows (adds_demand _ _ _ _ _))
          fun _ _ _ => (follows A₁ A₂).same y'.2
  case schemaFormat =>
    rintro name rfl v
    show (follows A₁ A₂).rel ((schemaFormat name).change s m b₁ n v p₁)
      ((schemaFormat name).change s m b₂ n v p₂)
    cases hk : s.subroutines.lookup (.format name) with
    | none =>
      have hchange : ∀ b p, (schemaFormat name).change s m b n v p = fun r => some (v, r) := by
        intro b p
        funext r
        simp only [change, hk]
      rw [hchange, hchange]
      exact (follows A₁ A₂).same v
    | some k =>
      rw [change_schemaFormat hk, change_schemaFormat hk]
      refine (follows A₁ A₂).map (follows_guarding hA (follows_spend hb ?_)) Prod.snd
      intro rest₁ rest₂ h₁ h₂
      exact follows_watching (target rest₁ rest₂ h₁ h₂ k _ _ v (hA.enter _))
  case look => exact fun v => c.run_steady s n v hb hA
  case names =>
    exact fun names place v => (adds_demand _ _ _ _ _).follows (adds_demand _ _ _ _ _)
  case absent => exact fun h seg => (adds_checkAbsent h _).follows (adds_checkAbsent h _)
  case down => exact (follows A₁ A₂).same ()

/-- A node whose mutating run follows itself, from a state with the same pairs active at the
value. -/
def Node.ChangesSteadily (s : Scope) (m : Changes) (budget : Nat) (n : Node) : Prop :=
  ∀ budget', budget ≤ budget' → ∀ A₁ A₂ p₁ p₂ v, Moved A₁ p₁ A₂ p₂ →
    (follows A₁ A₂).rel (n.change s m budget v p₁) (n.change s m budget' v p₂)

/-- **A mutating run from another state follows the run**, and leaves the same value. -/
theorem Node.change_follows (s : Scope) (m : Changes) (budget : Nat) (n : Node) :
    n.ChangesSteadily s m budget := by
  induction budget using Nat.strong_induction_on generalizing n with
  | _ budget ih =>
    refine Node.induction (P := Node.ChangesSteadily s m budget) (Q := fun c => ∀ n budget',
      budget ≤ budget' → ∀ A₁ A₂ p₁ p₂ v, Moved A₁ p₁ A₂ p₂ → (follows A₁ A₂).rel
        ((Check.changing s m budget n p₁).check m c v)
        ((Check.changing s m budget' n p₂).check m c v)) ?_ ?_ n
    · intro n hc budget' hb A₁ A₂ p₁ p₂ v hA
      rw [funext (n.change_eq s m budget p₁ v), funext (n.change_eq s m budget' p₂ v)]
      refine follows_under ((follows A₁ A₂).changing True.intro
        (fun c hmem w => hc c hmem n budget' hb A₁ A₂ p₁ p₂ w hA) (fun w => ?_) (fun w => ?_) v) _ _
      · exact (adds_reportMissing _ w p₁).follows (adds_reportMissing _ w p₂)
      · exact (adds_report _ _ _ _).follows (adds_report _ _ _ _)
    · intro c hn n budget' hb A₁ A₂ p₁ p₂ v hA
      refine (Check.changing_follows hA hb
        (fun k hk w below => hn k hk budget' hb A₁ A₂ _ _ w (hA.below _))
        fun rest₁ rest₂ h₁ h₂ k A₁ A₂ v hA => ?_).check True.intro m v
      exact ih rest₁ h₁ k rest₂ h₂ A₁ A₂ p₁ p₂ v hA

end Follows
end JsonSchema
