import JsonSchema.Proofs.Cycles
import JsonSchema.Proofs.OneGuard
import Mathlib.Logic.Relation

/-!
# References that make progress

One target leads to another if its node may ask for it on the same value. Where no target leads
back to itself, every pass through a cycle of references goes down to a part of the value, and the
guard is never in the way: it lets every target in, and each answer is that of the target run
alone.

* `Scope.LeadsTo`, `Scope.Progressive`: the relation and its being free of cycles;
* `Node.Asks.leadsTo`: entered targets lead to the target that is asked for;
* `Node.accepts_of_unreached`: entered targets that a node does not reach make no difference;
* `Validator.guardedRun`: the guarded run of a validator.
-/

namespace JsonSchema

open Relation (TransGen)

/-- The node of one target may ask for another one on the same value. -/
def Scope.LeadsTo (s : Scope) (k k' : Target) : Prop :=
  ∃ n, s.subroutines.lookup k = some n ∧ n.Mentions k'

/-- No target leads back to itself. -/
def Scope.Progressive (s : Scope) : Prop := ∀ k, ¬TransGen s.LeadsTo k k

def Node.Reaches (s : Scope) (n : Node) (k : Target) : Prop :=
  n.Mentions k ∨ ∃ k', n.Mentions k' ∧ TransGen s.LeadsTo k' k

section Runs

variable {s : Scope}

/-! ## Entered targets lead to the target that is asked for -/

theorem Node.Asks.leadsTo {k : Target} {w : Json} {q : Site} {n : Node} {v : Json} {p : Site}
    (h : n.Asks s k w q v p)
    (hp : ∀ k' ∈ p.entered, ∀ k, n.Mentions k → TransGen s.LeadsTo k' k) :
    ∀ k' ∈ q.entered, TransGen s.LeadsTo k' k := by
  induction h with
  | here hc hk => exact fun k' he => hp k' he k (.target hc hk)
  | stay hc hm _ ih => exact ih fun k' he k hk => hp k' he k (.nested hc hm hk)
  | down _ _ _ _ ih => exact ih nofun
  | @target n c k₁ m v p hc hk hm _ _ ih =>
    refine ih fun k' he k hmk => ?_
    have hlead : s.LeadsTo k₁ k := ⟨m, hm, hmk⟩
    rcases List.mem_cons.mp he with rfl | he
    · exact .single hlead
    · exact (hp k' he k₁ (.target hc hk)).tail hlead

/-! ## Entered targets out of reach -/

theorem Node.Reaches.of_mentions {n m : Node} {k k' : Target} (hk : n.Mentions k)
    (hm : s.subroutines.lookup k = some m) (h : m.Reaches s k') : n.Reaches s k' := by
  refine Or.inr ⟨k, hk, ?_⟩
  rcases h with h | ⟨k₁, h₁, h⟩
  · exact .single ⟨m, hm, h⟩
  · exact (TransGen.single ⟨m, hm, h₁⟩).trans h

theorem Node.Reaches.leadsTo {m : Node} {k k' : Target} (hm : s.subroutines.lookup k = some m)
    (h : m.Reaches s k') : TransGen s.LeadsTo k k' := by
  rcases h with h | ⟨k₁, h₁, h⟩
  · exact .single ⟨m, hm, h⟩
  · exact (TransGen.single ⟨m, hm, h₁⟩).trans h

/-- **Entered targets that a node does not reach make no difference.** -/
theorem Node.accepts_of_unreached (hs : s.Progressive) (v : Json) (p : Site) :
    ∀ (n : Node) (p' : Site), p'.path = p.path → (∀ k ∈ p.entered, ¬n.Reaches s k) →
      (∀ k ∈ p'.entered, ¬n.Reaches s k) → n.accepts s v p = n.accepts s v p' := by
  induction p using Scope.enter_induction (s := s) with
  | h p ih =>
    intro n p' hpath hp hp'
    rw [accepts_eq_holds, accepts_eq_holds, hpath]
    apply holds_congr
    intro k hk
    have hkp : k ∉ p.entered := fun he => hp k he (.inl hk)
    have hkp' : k ∉ p'.entered := fun he => hp' k he (.inl hk)
    rw [Scope.here, Scope.here, answers_eq, answers_eq]
    cases hm : s.subroutines.lookup k with
    | none => rfl
    | some m =>
      -- a target reached from the node of `k` is neither `k` nor one of those entered before
      have hfree : ∀ q : Site, (∀ k ∈ q.entered, ¬n.Reaches s k) →
          ∀ k' ∈ (q.enter k).entered, ¬m.Reaches s k' := by
        intro q hq k' he hr
        rcases List.mem_cons.mp he with rfl | he
        · exact hs _ (hr.leadsTo hm)
        · exact hq k' he (.of_mentions hk hm hr)
      have hlook : (s.subroutines.lookup k).isSome := Option.isSome_iff_exists.mpr ⟨m, hm⟩
      have := ih k hkp hlook m (p'.enter k) hpath (hfree p hp) (hfree p' hp')
      simp only [hkp, hkp', decide_false, Bool.false_or, this]

/-- A target that is let in where nothing entered is reached from it is answered as if it were run
alone. -/
theorem answers_eq_verdict (hs : s.Progressive) {k : Target} {v : Json} {p : Site}
    (hk : ∀ k' ∈ p.entered, ¬TransGen s.LeadsTo k k') (he : k ∉ p.entered) :
    Check.answers s k v p = s.verdict k v := by
  rw [answers_eq, Scope.verdict]
  cases hm : s.subroutines.lookup k with
  | none => rfl
  | some m =>
    have hfree : ∀ k' ∈ (p.enter k).entered, ¬m.Reaches s k' := by
      intro k' hmem hr
      rcases List.mem_cons.mp hmem with rfl | hmem
      · exact hs _ (hr.leadsTo hm)
      · exact hk k' hmem (hr.leadsTo hm)
    have halone := m.accepts_of_unreached hs v (p.enter k) ⟨p.path, []⟩ rfl hfree
      (List.forall_mem_nil _)
    simp only [he, decide_false, Bool.false_or, halone]
    exact m.accepts_path s v ⟨p.path, []⟩ []

end Runs

/-! ## Validators -/

namespace Validator

/-- The guarded run of a validator on a value. Its budget allows every target to be open once at
every level of the value. -/
def guardedRun (w : Validator) (recording : Recording) (v : Json) : Option GuardedRun :=
  w.root.run w.scope (w.subroutines.length * v.height) v [] { tally := Tally.start recording }

/-- The guarded run of a validator ends with the tally of its run, and all its questions are those
that the run comes to. -/
theorem guardedRun_eq (w : Validator) (recording : Recording) (v : Json) :
    ∃ r, w.guardedRun recording v = some r ∧
      r.tally = w.root.check w.scope v {} (Tally.start recording) ∧
        ∀ e ∈ r.log, w.root.Notes w.scope v {} e := by
  obtain ⟨es, hrun, hes⟩ := w.root.run_performs w.scope v {} [] _ none Site.Guards.start
    Scope.Sound.start (Scope.budget_le v.height_pos {}) { tally := Tally.start recording } rfl rfl
  exact ⟨_, hrun, (w.root.check_eq w.scope v {} _).symm, hes⟩

/-- **Where references make progress the guard is never in the way.** If no target leads back to
itself on the same value, then in a run on any value, the tally of which `validate` and `isValid`
judge, the guard lets in every target that is asked for, and each passes exactly if its node, run
alone on the value, reports nothing. -/
theorem guard_invisible (w : Validator) (hw : w.scope.Progressive) (recording : Recording)
    (v : Json) :
    ∃ r, w.guardedRun recording v = some r ∧
      r.tally = w.root.check w.scope v {} (Tally.start recording) ∧
        ∀ q, .question q ∈ r.log →
          q.entered = true ∧ q.passed = w.scope.verdict q.target q.value := by
  obtain ⟨r, hrun, htally, hlog⟩ := w.guardedRun_eq recording v
  refine ⟨r, hrun, htally, fun q hq => ?_⟩
  obtain ⟨p, hfits, hasks⟩ := hlog _ hq
  have hlead := hasks.leadsTo nofun
  have he : q.target ∉ p.entered := fun he => hw _ (hlead _ he)
  refine ⟨by simp [hfits.entered, he], ?_⟩
  rw [hfits.passed]
  exact answers_eq_verdict hw (fun k' hk' h => hw k' ((hlead k' hk').trans h)) he

def linked : Validator where
  root := .mk { location := [] } [] [.reference "#/definitions/list" []]
  subroutines :=
    [(.reference "#/definitions/list", .mk { location := [] } []
      [.properties [("next", .mk { location := [] } []
        [.reference "#/definitions/list" []])] false])]
  schema := .null
  options := {}

theorem linked_progressive : linked.scope.Progressive := by
  have hnone : ∀ k k', ¬linked.scope.LeadsTo k k' := by
    rintro k k' ⟨n, hn, hm⟩
    have hmem := mem_of_lookup hn
    simp only [scope, linked, List.mem_singleton, Prod.mk.injEq] at hmem
    obtain ⟨-, rfl⟩ := hmem
    cases hm with
    | target hc hk =>
      simp only [Node.checks, List.nil_append, List.mem_singleton] at hc
      subst hc
      simp [Check.target?] at hk
    | nested hc hn hm =>
      simp only [Node.checks, List.nil_append, List.mem_singleton] at hc
      subst hc
      simp [Check.nodesHere] at hn
  intro k hk
  cases hk with
  | single h => exact hnone _ _ h
  | tail _ h => exact hnone _ _ h

theorem linked_answered :
    (linked.guardedRun .brief (.object [("next", .object [])])).map GuardedRun.answered =
      some [(.reference "#/definitions/list", [.name "next"], true),
        (.reference "#/definitions/list", [], true)] := by
  have hheight : (Json.object [("next", .object [])]).height = 2 := by decide
  have hproperties (budget : Nat) (n : Node) (ns : List (String × Node)) (v : Json) (path : Path)
      (r : GuardedRun) : (Check.properties ns false).run linked.scope budget n v path r =
        ((Check.properties ns false).actions v path).foldlM
          (fun r a => a.runIn linked.scope budget n path r) r :=
    Check.run_direct (p := ⟨path, []⟩) rfl r
  rw [guardedRun, hheight]
  simp only [linked, scope] at hproperties ⊢
  simp [Node.run, Check.run, hproperties, Check.actions, Action.runIn, List.lookup_cons,
    Heading.acceptsType, Heading.missing, GuardedRun.reportMissing, GuardedRun.guarded, spend,
    GuardedRun.probe, GuardedRun.suspend, GuardedRun.quietSince, GuardedRun.rewind,
    GuardedRun.enter, GuardedRun.leave, GuardedRun.note, GuardedRun.demand, GuardedRun.checkAbsent,
    GuardedRun.answered, Tally.start, Node.heading]

/-- Both the list and its rest are asked for and entered. -/
theorem guard_invisible_linked : linked.scope.Progressive ∧
    ∃ r, linked.guardedRun .brief (.object [("next", .object [])]) = some r ∧
      r.tally = linked.root.check linked.scope (.object [("next", .object [])]) {}
        (Tally.start .brief) ∧
      (∀ q, .question q ∈ r.log →
        q.entered = true ∧ q.passed = linked.scope.verdict q.target q.value) ∧
      r.answered = [(.reference "#/definitions/list", [.name "next"], true),
        (.reference "#/definitions/list", [], true)] := by
  obtain ⟨r, hrun, htally, hlog⟩ :=
    guard_invisible linked linked_progressive .brief (.object [("next", .object [])])
  have hanswered := linked_answered
  rw [hrun] at hanswered
  exact ⟨linked_progressive, r, hrun, htally, hlog, Option.some.inj hanswered⟩

end Validator

end JsonSchema
