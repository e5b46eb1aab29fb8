import JsonSchema.Proofs.Answers
import JsonSchema.Validator
import Mathlib.Order.Bounds.Basic
import Mathlib.Order.BooleanAlgebra.Basic

/-!
# Cycles of references

A target that is entered again on the same value counts as passed, so an answer depends on the
targets entered when it is asked for. In a schema without negative checks the answers still add up:
taken with no target entered, they are the greatest family that agrees with the unfolding of every
target.

* `Scope.unfold`: a target by its node, the targets met on the way being answered by a family;
* `Scope.here_of_post`, `Scope.here_post`: the answers with some targets entered, from above and
  from below;
* `Scope.below_eq_unfold`: the answers with none entered agree with the unfolding;
* `Scope.le_below`: they are above every family that implies its unfolding.
-/

namespace JsonSchema

namespace Scope

/-- What the node of a target says of a value, if the family answers the targets that it meets
there and below. -/
def unfold (s : Scope) (X : Answers) (k : Target) (path : Path) (v : Json) : Bool :=
  match s.subroutines.lookup k with
  | some n => n.holds X (fun k => X k path v) path v
  | none => true

def verdict (s : Scope) (k : Target) (v : Json) : Bool :=
  match s.subroutines.lookup k with
  | some n => n.accepts s v {}
  | none => true

def Positive (s : Scope) : Prop := ∀ k n, s.subroutines.lookup k = some n → n.Positive

/-! ## Answers on one value -/

def step (s : Scope) (x : Target → Bool) (path : Path) (v : Json) (k : Target) : Bool :=
  match s.subroutines.lookup k with
  | some n => n.holds s.below x path v
  | none => true

variable {s : Scope} {path : Path} {v : Json} {p : Site} {k : Target}

theorem step_mono (hs : s.Positive) {x y : Target → Bool} (h : ∀ k, x k = true → y k = true) :
    s.step x path v k = true → s.step y path v k = true := by
  rw [step, step]
  cases hl : s.subroutines.lookup k with
  | none => exact id
  | some n => exact Node.holds_mono (hs k n hl) (fun _ _ _ _ hb => hb) h

/-- A target passes if it is entered, or if its node accepts the value once it is entered. -/
theorem here_iff :
    s.here v p k = true ↔ k ∈ p.entered ∨ s.step (s.here v (p.enter k)) p.path v k = true := by
  rw [here, answers_eq, step]
  cases s.subroutines.lookup k with
  | none => simp
  | some n =>
    simp only [Bool.or_eq_true, decide_eq_true_eq, Node.accepts_eq_holds]
    rfl

/-- Induction over the targets entered on a value: what holds of a site holds as soon as it holds
of the sites with one more target. -/
theorem enter_induction {P : Site → Prop}
    (h : ∀ p, (∀ k, k ∉ p.entered → (s.subroutines.lookup k).isSome → P (p.enter k)) → P p) :
    ∀ p, P p := by
  have key : ∀ bound, ∀ p : Site, Subroutines.openCount s.subroutines p.entered < bound → P p := by
    intro bound
    induction bound with
    | zero => exact nofun
    | succ bound ih =>
      intro p hp
      refine h p fun k hk hl => ih _ ?_
      obtain ⟨n, hn⟩ := Option.isSome_iff_exists.mp hl
      have := Subroutines.open_lt hn hk
      show Subroutines.openCount s.subroutines (k :: p.entered) < bound
      omega
  intro p
  exact key _ p (Nat.lt_succ_self _)

theorem step_of_lookup_none {x : Target → Bool} (h : ¬(s.subroutines.lookup k).isSome) :
    s.step x path v k = true := by
  rw [step, Option.not_isSome_iff_eq_none.mp h]

/-- The answers at a site are above all that are justified by their unfolding or by the targets
entered there. -/
theorem here_of_post (hs : s.Positive) :
    ∀ (p : Site) (x : Target → Bool),
      (∀ k, x k = true → k ∈ p.entered ∨ s.step x p.path v k = true) →
        ∀ k, x k = true → s.here v p k = true := by
  intro p
  induction p using enter_induction (s := s) with
  | h p ih =>
    intro x hx k hk
    rw [here_iff]
    by_cases he : k ∈ p.entered
    · exact Or.inl he
    right
    by_cases hl : (s.subroutines.lookup k).isSome
    · have hstep : s.step x p.path v k = true := (hx k hk).resolve_left he
      have hle : ∀ k', x k' = true → s.here v (p.enter k) k' = true := by
        apply ih k he hl x
        intro k' hk'
        exact (hx k' hk').imp_left (List.mem_cons_of_mem k)
      exact step_mono hs hle hstep
    · exact step_of_lookup_none hl

/-- The answers at a site are justified by their unfolding or by the targets entered there. -/
theorem here_post (hs : s.Positive) :
    ∀ (p : Site) (k : Target), s.here v p k = true →
      k ∈ p.entered ∨ s.step (s.here v p) p.path v k = true := by
  intro p
  induction p using enter_induction (s := s) with
  | h p ih =>
    intro k hk
    rcases here_iff.mp hk with he | hstep
    · exact Or.inl he
    by_cases he : k ∈ p.entered
    · exact Or.inl he
    right
    by_cases hl : (s.subroutines.lookup k).isSome
    · -- with `k` entered the answers are justified without `k`, since `k` unfolds under them
      have hle : ∀ k', s.here v (p.enter k) k' = true → s.here v p k' = true := by
        apply here_of_post hs p
        intro k' hk'
        rcases ih k he hl k' hk' with hmem | hstep'
        · rcases List.mem_cons.mp hmem with rfl | hmem
          · exact Or.inr hstep
          · exact Or.inl hmem
        · exact Or.inr hstep'
      exact step_mono hs hle hstep
    · exact step_of_lookup_none hl

/-! ## Answers on all values -/

theorem below_eq_unfold (hs : s.Positive) (k : Target) (path : Path) (v : Json) :
    s.below k path v = s.unfold s.below k path v := by
  let p : Site := ⟨path, []⟩
  have hpost : ∀ k, s.here v p k = true → s.step (s.here v p) path v k = true :=
    fun k hk => (here_post hs p k hk).resolve_left List.not_mem_nil
  have hpre : ∀ k, s.step (s.here v p) path v k = true → s.here v p k = true :=
    here_of_post hs p (s.step (s.here v p) path v) fun k hk => Or.inr (step_mono hs hpost hk)
  have h : s.here v p k = s.step (s.here v p) path v k := Bool.eq_iff_iff.mpr ⟨hpost k, hpre k⟩
  exact h

theorem le_below (hs : s.Positive) {X : Answers}
    (hX : ∀ k path v, X k path v = true → s.unfold X k path v = true) (k : Target) (path : Path)
    (v : Json) : X k path v = true → s.below k path v = true := by
  induction hn : sizeOf v using Nat.strongRecOn generalizing k path v with
  | ind size ih =>
    subst hn
    have hb : X.LeBelow s.below v := fun k path w hw => ih (sizeOf w) hw k path w rfl
    have hpost : ∀ k, X k path v = true → s.step (fun k => X k path v) path v k = true := by
      intro k hk
      have hu := hX k path v hk
      rw [unfold] at hu
      rw [step]
      cases hl : s.subroutines.lookup k with
      | none => rfl
      | some n =>
        rw [hl] at hu
        exact Node.holds_mono (hs k n hl) hb (fun _ h => h) hu
    intro hk
    exact here_of_post hs ⟨path, []⟩ (fun k => X k path v) (fun k hk => Or.inr (hpost k hk)) k hk

/-- A target met with no target entered is answered as if it were run alone. -/
theorem below_eq_verdict (hs : s.Positive) : s.below = fun k _ v => s.verdict k v := by
  funext k path v
  rw [below_eq_unfold hs, unfold, verdict]
  cases s.subroutines.lookup k with
  | none => rfl
  | some n =>
    show n.holds s.below (s.here v ⟨path, []⟩) path v = n.accepts s v {}
    rw [n.accepts_path s v {} path, Node.accepts_eq_holds]

/-- Every target of the family is answered as its unfolding says. -/
def Consistent (s : Scope) (X : Answers) : Prop :=
  ∀ k path v, X k path v = s.unfold X k path v

end Scope

namespace Validator

/-- There is no negation and no `oneOf`, neither in the root nor in a target. -/
def Positive (w : Validator) : Prop := w.root.Positive ∧ w.scope.Positive

/-- **The verdicts of a validator without negative checks.** The verdicts of the targets are the
greatest family in which every target is answered as its unfolding says, whatever cycles there
are, and a value is valid when the root node accepts it under the verdicts. -/
theorem verdict_isGreatest (w : Validator) (hw : w.Positive) :
    IsGreatest {X | w.scope.Consistent X} (fun k _ v => w.scope.verdict k v) ∧
      ∀ v, w.isValid v = w.root.holds (fun k _ v => w.scope.verdict k v)
        (fun k => w.scope.verdict k v) [] v := by
  have hv := Scope.below_eq_verdict hw.2
  rw [← hv]
  refine ⟨⟨?_, ?_⟩, ?_⟩
  · exact Scope.below_eq_unfold hw.2
  · intro X hX k path v
    rw [Bool.le_iff_imp]
    exact Scope.le_below hw.2 (fun k path v h => (hX k path v).symm.trans h) k path v
  · intro v
    show w.root.accepts w.scope v {} = _
    rw [Node.accepts_eq_holds]
    have hhere : w.scope.here v {} = fun k => w.scope.verdict k v := by
      funext k
      exact congrFun (congrFun (congrFun hv k) []) v
    rw [hhere]

/-- Two targets that ask for each other on the same value, one of them besides an alternative. -/
def circle : Validator where
  root := .mk { location := [] } [] [.reference "#/definitions/a" []]
  subroutines :=
    [(.reference "#/definitions/a", .mk { location := [] } []
      [.anyOf [.mk { location := [] } [] [.reference "#/definitions/b" []],
        .mk { location := [], types := some (.ofList [.string]) } [] []] []]),
      (.reference "#/definitions/b", .mk { location := [] } []
        [.reference "#/definitions/a" []])]
  schema := .null
  options := {}

theorem circle_positive : circle.Positive := by
  have href : ∀ text, (Node.mk { location := [] } [] [.reference text []]).Positive := by
    intro text
    apply Node.Positive.of_checks
    simp [Node.checks, Check.negative, Check.nodes, Check.nodesHere, Check.nodesBelow]
  have hnil : ∀ h, (Node.mk h [] []).Positive := fun h => .of_checks (by simp [Node.checks])
  refine ⟨href _, fun k n hn => ?_⟩
  have hmem := mem_of_lookup hn
  simp only [scope, circle, List.mem_cons, Prod.mk.injEq, List.not_mem_nil, or_false] at hmem
  rcases hmem with ⟨-, rfl⟩ | ⟨-, rfl⟩
  · apply Node.Positive.of_checks
    simp [Node.checks, Check.negative, Check.nodes, Check.nodesHere, Check.nodesBelow, href, hnil]
  · exact href _

theorem verdict_isGreatest_circle : circle.Positive ∧
    IsGreatest {X | circle.scope.Consistent X} (fun k _ v => circle.scope.verdict k v) ∧
      ∀ v, circle.isValid v = circle.root.holds (fun k _ v => circle.scope.verdict k v)
        (fun k => circle.scope.verdict k v) [] v :=
  ⟨circle_positive, verdict_isGreatest circle circle_positive⟩

end Validator

end JsonSchema
