import JsonSchema.Proofs.Answers
import JsonSchema.Proofs.Performs

/-!
# One guard for a whole run

A guarded run keeps one set of active targets and threads it through probes and failing branches,
while a run tracks the targets entered on the current value alone. The two agree: a pair is active
for the current value exactly if its target has been entered there, no pair is active for a value
below, and every entry is taken back. So a guarded run with enough budget makes the reports of the
run, and all its questions are those that the run comes to.

* `Site.Guards`: the active pairs agree with a site;
* `Scope.budget`: the entries that may still be open inside one another;
* `Node.Asks`: a run comes to ask for a target at a site;
* `Node.run_performs`: a guarded run makes the reports of the run.
-/

namespace JsonSchema

/-! ## Active pairs -/

/-- Of the pairs at the place of a value and below, exactly those of the entered targets with that
place are active. -/
def Site.Guards (p : Site) (active : List (Target × Path)) : Prop :=
  ∀ k q, (k, p.path ++ q) ∈ active ↔ q = [] ∧ k ∈ p.entered

namespace Site.Guards

variable {p : Site} {active : List (Target × Path)}

theorem start : Site.Guards {} [] := by
  intro k q
  simp

theorem mem_iff (h : p.Guards active) (k : Target) : (k, p.path) ∈ active ↔ k ∈ p.entered := by
  have := h k []
  rw [List.append_nil] at this
  rw [this]
  exact and_iff_right rfl

/-- Nothing is active on a part of the value. -/
theorem down (h : p.Guards active) (s : Segment) : (p.down s).Guards active := by
  intro k q
  have := h k (s :: q)
  rw [Site.down, List.append_assoc, List.singleton_append, this]
  simp

theorem enter (h : p.Guards active) (k : Target) : (p.enter k).Guards ((k, p.path) :: active) := by
  intro k' q
  have hq : p.path ++ q = p.path ↔ q = [] := by simp
  rw [Site.enter, List.mem_cons, h k' q, List.mem_cons, Prod.mk.injEq, hq]
  constructor
  · rintro (⟨rfl, hq⟩ | ⟨hq, hk⟩)
    · exact ⟨hq, Or.inl rfl⟩
    · exact ⟨hq, Or.inr hk⟩
  · rintro ⟨hq, rfl | hk⟩
    · exact Or.inl ⟨rfl, hq⟩
    · exact Or.inr ⟨hq, hk⟩

end Site.Guards

/-- The active pairs are distinct and belong to compiled targets. -/
structure Scope.Sound (s : Scope) (active : List (Target × Path)) : Prop where
  nodup : active.Nodup
  compiled : ∀ e ∈ active, (s.subroutines.lookup e.1).isSome

namespace Scope.Sound

variable {s : Scope} {active : List (Target × Path)}

theorem start : s.Sound [] := ⟨List.nodup_nil, List.forall_mem_nil _⟩

theorem enter (h : s.Sound active) {k : Target} {n : Node} {path : Path}
    (hn : s.subroutines.lookup k = some n) (hk : (k, path) ∉ active) :
    s.Sound ((k, path) :: active) := by
  refine ⟨List.nodup_cons.mpr ⟨hk, h.nodup⟩, fun e he => ?_⟩
  rcases List.mem_cons.mp he with rfl | he
  · exact Option.isSome_iff_exists.mpr ⟨n, hn⟩
  · exact h.compiled e he

end Scope.Sound

/-! ## Budgets -/

namespace Scope

variable {s : Scope} {level level' : Nat} {p : Site}

/-- The entries that may still be opened inside one another on a value of the given height: the
targets not yet entered on it, and all targets at each level below it. -/
def budget (s : Scope) (level : Nat) (p : Site) : Nat :=
  Subroutines.openCount s.subroutines p.entered + s.subroutines.length * (level - 1)

theorem budget_down (hpos : 0 < level') (hl : level' < level) (seg : Segment) :
    s.budget level' (p.down seg) ≤ s.budget level p := by
  have hopen := Subroutines.open_le s.subroutines (p.down seg).entered
  have hmul : s.subroutines.length + s.subroutines.length * (level' - 1) ≤
      s.subroutines.length * (level - 1) := by
    rw [Nat.add_comm, ← Nat.mul_succ]
    exact Nat.mul_le_mul_left _ (by omega)
  rw [budget, budget]
  omega

theorem budget_enter {k : Target} {n : Node} (hn : s.subroutines.lookup k = some n)
    (hk : k ∉ p.entered) : s.budget level (p.enter k) < s.budget level p :=
  Nat.add_lt_add_right (Subroutines.open_lt hn hk) _

theorem budget_le (hpos : 0 < level) (p : Site) :
    s.budget level p ≤ s.subroutines.length * level := by
  have hopen := Subroutines.open_le s.subroutines p.entered
  have hmul : s.subroutines.length * level =
      s.subroutines.length * (level - 1) + s.subroutines.length := by
    rw [← Nat.mul_succ]
    congr 1
    omega
  rw [budget]
  omega

end Scope

/-! ## Questions of a run -/

/-- A run of the node on a value at a site may come to ask for target `k` on the value `w` at the
site `q`. -/
inductive Node.Asks (s : Scope) (k : Target) (w : Json) (q : Site) : Node → Json → Site → Prop
  | here {n : Node} {c : Check} : c ∈ n.checks → c.target? = some k → Asks s k w q n w q
  | stay {n : Node} {c : Check} {m : Node} {v : Json} {p : Site} :
      c ∈ n.checks → m ∈ c.nodesHere → Asks s k w q m v p → Asks s k w q n v p
  | down {n : Node} {c : Check} {m : Node} {v x : Json} {p : Site} {seg : Segment} :
      c ∈ n.checks → m ∈ c.nodesBelow → x ∈ v.parts → Asks s k w q m x (p.down seg) →
        Asks s k w q n v p
  | target {n : Node} {c : Check} {k' : Target} {m : Node} {v : Json} {p : Site} :
      c ∈ n.checks → c.target? = some k' → s.subroutines.lookup k' = some m → k' ∉ p.entered →
        Asks s k w q m v (p.enter k') → Asks s k w q n v p

/-- A question is one that the run comes to at a site with the given active pairs, and it is
answered as it is there. -/
structure Question.Fits (q : Question) (s : Scope) (p : Site) : Prop where
  path : q.path = p.path
  guards : p.Guards q.active
  sound : s.Sound q.active
  compiled : (s.subroutines.lookup q.target).isSome
  entered : q.entered = decide (q.target ∉ p.entered)
  passed : q.passed = Check.answers s q.target q.value p

/-- What a run of the node notes: its questions, and nodes that a node of the run holds. -/
def Node.Notes (s : Scope) (n : Node) (v : Json) (p : Site) : Event → Prop
  | .question q => ∃ p', q.Fits s p' ∧ n.Asks s q.target q.value p' v p
  | .nested parent child => child.PartOf parent

section Runs

variable {s : Scope} {n : Node} {v : Json} {p : Site} {c : Check} {A : List (Target × Path)}
  {d : Option Json} {budget : Nat}

theorem Node.Notes.stay (hc : c ∈ n.checks) {m : Node} (hm : m ∈ c.nodesHere) {e : Event}
    (h : m.Notes s v p e) : n.Notes s v p e := by
  cases e with
  | question q =>
    obtain ⟨p', hq, ha⟩ := h
    exact ⟨p', hq, .stay hc hm ha⟩
  | nested => exact h

theorem Node.Notes.down (hc : c ∈ n.checks) {m : Node} (hm : m ∈ c.nodesBelow) {w : Json}
    (hw : w ∈ v.parts) {seg : Segment} {e : Event} (h : m.Notes s w (p.down seg) e) :
    n.Notes s v p e := by
  cases e with
  | question q =>
    obtain ⟨p', hq, ha⟩ := h
    exact ⟨p', hq, .down hc hm hw ha⟩
  | nested => exact h

theorem Node.Notes.target (hc : c ∈ n.checks) {k : Target} (hk : c.target? = some k) {m : Node}
    (hm : s.subroutines.lookup k = some m) (he : k ∉ p.entered) {e : Event}
    (h : m.Notes s v (p.enter k) e) : n.Notes s v p e := by
  cases e with
  | question q =>
    obtain ⟨p', hq, ha⟩ := h
    exact ⟨p', hq, .target hc hk hm he ha⟩
  | nested => exact h

/-! ## Steps of a check -/

/-- A node that makes the reports of its run, whatever is active and however large the budget, as
long as it is large enough. -/
def Node.Runs (s : Scope) (n : Node) (v : Json) (p : Site) : Prop :=
  ∀ A budget d, p.Guards A → s.Sound A → s.budget v.height p ≤ budget →
    Performs A d (n.Notes s v p) (n.run s budget v p.path) (n.reports s v p)

/-- The guard lets a target run if it is not entered, and answers for it as the run does. -/
theorem guarded_performs {k : Target} {m : Node} (vs : List Violation)
    (body : Nat → GuardedRun → Option (Bool × GuardedRun)) (hc : c ∈ n.checks)
    (hk : c.target? = some k) (hm : s.subroutines.lookup k = some m) (hA : p.Guards A)
    (hs : s.Sound A) (hb : s.budget v.height p ≤ budget)
    (hbody : ∀ budget, k ∉ p.entered → s.budget v.height (p.enter k) ≤ budget →
      ∀ r : GuardedRun, r.active = (k, p.path) :: A → r.declaredType = d →
        ∃ es, body budget r = some (m.accepts s v (p.enter k), r.after vs es) ∧
          ∀ e ∈ es, m.Notes s v (p.enter k) e)
    (r : GuardedRun) (hr : r.active = A) (hd : r.declaredType = d) :
    ∃ es, (r.guarded k p.path v fun r => spend budget fun rest _ => body rest r) =
      some (Check.answers s k v p, r.after (if k ∈ p.entered then [] else vs) es) ∧
        ∀ e ∈ es, n.Notes s v p e := by
  subst hr
  have hl : (s.subroutines.lookup k).isSome := Option.isSome_iff_exists.mpr ⟨m, hm⟩
  by_cases he : k ∈ p.entered
  · have ha : Check.answers s k v p = true := by simp [answers_eq, hm, he]
    rw [guarded_of_mem ((hA.mem_iff k).mpr he), ha, if_pos he]
    refine ⟨_, rfl, ?_⟩
    intro e h
    rw [List.mem_singleton.mp h]
    exact ⟨p, ⟨rfl, hA, hs, hl, by simp [he], ha.symm⟩, .here hc hk⟩
  · have ha : Check.answers s k v p = m.accepts s v (p.enter k) := by simp [answers_eq, hm, he]
    have hlt : s.budget v.height (p.enter k) < s.budget v.height p := Scope.budget_enter hm he
    have hmem : (k, p.path) ∉ r.active := fun h => he ((hA.mem_iff k).mp h)
    obtain ⟨b, rfl⟩ : ∃ b, budget = b + 1 := ⟨budget - 1, by omega⟩
    obtain ⟨es, hrun, hes⟩ := hbody b he (by omega)
      (r.enter k p.path) rfl hd
    have hg : (r.guarded k p.path v fun r => spend (b + 1) fun rest _ => body rest r) = _ :=
      guarded_of_not_mem hmem hrun
    rw [hg, ha, if_neg he]
    refine ⟨_, rfl, fun e h => ?_⟩
    rcases List.mem_append.mp h with h | h
    · exact Node.Notes.target hc hk hm he (hes e h)
    · rw [List.mem_singleton.mp h]
      exact ⟨p, ⟨rfl, hA, hs, hl, by simp [he], ha.symm⟩, .here hc hk⟩

/-- A nested node that is probed on the value tells whether it accepts the value. -/
theorem probe_nested (hc : c ∈ n.checks) {m : Node} (hm : m ∈ c.nodesHere)
    (hrun : m.Runs s v p) (hA : p.Guards A) (hs : s.Sound A) (hb : s.budget v.height p ≤ budget)
    (r : GuardedRun) (hr : r.active = A) (hd : r.declaredType = d) :
    ∃ es, ((r.note (.nested n m)).probe fun r => m.run s budget v p.path r) =
      some (m.accepts s v p, r.after [] es) ∧ ∀ e ∈ es, n.Notes s v p e := by
  obtain ⟨es, hp, hes⟩ := probe_of_performs (r := r.note (.nested n m))
    (hrun A budget d hA hs hb) hr hd
  refine ⟨.nested n m :: es, ?_, ?_⟩
  · rw [hp, r.note_eq, r.after_after, m.accepts_eq_isEmpty]
    rfl
  · intro e h
    rcases List.mem_cons.mp h with rfl | h
    · exact ⟨c, hc, List.mem_append_left _ hm⟩
    · exact Node.Notes.stay hc hm (hes e h)

/-- A walk over nodes that keeps a result beside the state and reports nothing. -/
theorem foldlM_after {α β : Type} {P : Event → Prop}
    (xs : List α) (f : β × GuardedRun → α → Option (β × GuardedRun)) (g : β → α → β)
    (h : ∀ x ∈ xs, ∀ b (r : GuardedRun), r.active = A → r.declaredType = d →
      ∃ es, f (b, r) x = some (g b x, r.after [] es) ∧ ∀ e ∈ es, P e) (b : β)
    (r : GuardedRun) (hr : r.active = A) (hd : r.declaredType = d) :
    ∃ es, xs.foldlM f (b, r) = some (xs.foldl g b, r.after [] es) ∧ ∀ e ∈ es, P e := by
  induction xs generalizing b r with
  | nil => exact ⟨[], by rw [r.after_nil]; rfl, List.forall_mem_nil _⟩
  | cons x xs ih =>
    obtain ⟨es, hx, hes⟩ := h x List.mem_cons_self b r hr hd
    obtain ⟨fs, hxs, hfs⟩ := ih (fun y hy => h y (List.mem_cons_of_mem x hy)) (g b x)
      (r.after [] es) hr hd
    refine ⟨es ++ fs, ?_, fun e h => (List.mem_append.mp h).elim (hes e) (hfs e)⟩
    rw [List.foldlM_cons, hx, ← List.append_nil ([] : List Violation), ← r.after_after]
    exact hxs

/-! ## Checks -/

/-- A check that makes the reports of its run as part of the node `n`. -/
def Check.Runs (s : Scope) (n : Node) (c : Check) (v : Json) (p : Site) : Prop :=
  ∀ A budget, p.Guards A → s.Sound A → s.budget v.height p ≤ budget →
    Performs A n.heading.declaredType (n.Notes s v p) (c.run s budget n v p.path)
      (c.reports s n.heading v p)

/-- A verdict that was reached without a report leaves the report of a demand. -/
theorem demand_after {P : Event → Prop} {es : List Event} (hes : ∀ e ∈ es, P e) (h : Heading)
    (holds : Bool) (kind : Violation.Kind) (v : Json) (place : Path) (p : Site) {r : GuardedRun}
    (hd : r.declaredType = h.declaredType) :
    ∃ fs, some ((r.after [] es).demand holds p.path kind v place) =
      some (r.after (h.demandReports holds kind v place p) fs) ∧ ∀ e ∈ fs, P e := by
  obtain ⟨fs, hf, hfs⟩ := Performs.demand (P := P) holds p.path kind v place (r.after [] es) rfl hd
  refine ⟨es ++ fs, ?_, fun e h => (List.mem_append.mp h).elim (hes e) (hfs e)⟩
  refine Eq.trans hf ?_
  rw [r.after_after]
  rfl

theorem Check.runs_reference {text : String} {place : Path}
    (hc : reference text place ∈ n.checks)
    (target : ∀ m, s.subroutines.lookup (.reference text) = some m → .reference text ∉ p.entered →
      m.Runs s v (p.enter (.reference text))) :
    (reference text place).Runs s n v p := by
  intro A budget hA hs hb r hr hd
  rw [reports_reference, run]
  cases hm : s.subroutines.lookup (.reference text) with
  | none =>
    rw [show answers s (.reference text) v p = true by simp [answers_eq, hm]]
    exact Performs.nothing r hr hd
  | some m =>
    obtain ⟨es, hg, hes⟩ := guarded_performs (d := n.heading.declaredType) []
      (fun budget r => r.probe fun r => m.run s budget v p.path r) hc rfl hm hA hs hb
      (fun budget he hb r hr hd => by
        rw [m.accepts_eq_isEmpty]
        exact probe_of_performs (target m hm he _ budget _ (hA.enter _)
          (hs.enter hm fun h => he ((hA.mem_iff _).mp h)) hb) hr hd) r hr hd
    rw [ite_self] at hg
    simp only [hg]
    exact demand_after hes n.heading _ .reference v place p hd

theorem Check.runs_schemaFormat {name : String} (hc : schemaFormat name ∈ n.checks)
    (target : ∀ m, s.subroutines.lookup (.format name) = some m → .format name ∉ p.entered →
      m.Runs s v (p.enter (.format name))) :
    (schemaFormat name).Runs s n v p := by
  intro A budget hA hs hb r hr hd
  rw [reports_schemaFormat, run]
  cases hm : s.subroutines.lookup (.format name) with
  | none => exact Performs.nothing r hr hd
  | some m =>
    obtain ⟨es, hg, hes⟩ := guarded_performs (d := n.heading.declaredType) _
      (fun budget r => r.watch fun r => m.run s budget v p.path r) hc rfl hm hA hs hb
      (fun budget he hb r hr hd => by
        rw [m.accepts_eq_isEmpty]
        exact watch_of_performs (target m hm he _ budget _ (hA.enter _)
          (hs.enter hm fun h => he ((hA.mem_iff _).mp h)) hb) hr hd) r hr hd
    refine ⟨es, ?_, hes⟩
    simp only [hg]
    rfl

theorem Check.runs_negation {m : Node} {place : Path} (hc : negation m place ∈ n.checks)
    (stay : m.Runs s v p) : (negation m place).Runs s n v p := by
  intro A budget hA hs hb r hr hd
  obtain ⟨es, hp, hes⟩ := probe_nested hc (by simp [nodesHere]) stay hA hs hb r hr hd
  rw [reports_negation, run, hp]
  exact demand_after hes n.heading _ .not v place p hd

theorem foldl_or {α : Type} (f : α → Bool) (xs : List α) (found : Bool) :
    xs.foldl (fun found x => found || f x) found = (found || xs.any f) := by
  induction xs generalizing found with
  | nil => simp
  | cons x xs ih => rw [List.foldl_cons, ih, List.any_cons, Bool.or_assoc]

theorem foldl_count {α : Type} (f : α → Bool) (xs : List α) (passes : Nat) :
    xs.foldl (fun passes x => passes + (f x).toNat) passes = passes + xs.countP f := by
  induction xs generalizing passes with
  | nil => simp
  | cons x xs ih =>
    rw [List.foldl_cons, ih, List.countP_cons]
    cases f x with
    | false => simp
    | true =>
      simp only [Bool.toNat_true, if_true]
      omega

/-- The nodes after the first one that passes are not run, and their verdicts are not needed. -/
theorem Check.runs_anyOf {ns : List Node} {place : Path} (hc : anyOf ns place ∈ n.checks)
    (stay : ∀ m ∈ ns, m.Runs s v p) : (anyOf ns place).Runs s n v p := by
  intro A budget hA hs hb r hr hd
  obtain ⟨es, hf, hes⟩ := foldlM_after (P := n.Notes s v p) (A := A)
    (d := n.heading.declaredType) ns
    (fun y m => if y.1 then some (true, y.2)
      else (y.2.note (.nested n m)).probe fun r => m.run s budget v p.path r)
    (fun found m => found || m.accepts s v p)
    (fun m hm found r hr hd => by
      cases found with
      | true => exact ⟨[], by rw [r.after_nil]; rfl, List.forall_mem_nil _⟩
      | false => exact probe_nested hc hm (stay m hm) hA hs hb r hr hd) false r hr hd
  rw [foldl_or, Bool.false_or] at hf
  rw [reports_anyOf, run, hf]
  exact demand_after hes n.heading _ .anyOf v place p hd

theorem Check.runs_oneOf {ns : List Node} {place : Path} (hc : oneOf ns place ∈ n.checks)
    (stay : ∀ m ∈ ns, m.Runs s v p) : (oneOf ns place).Runs s n v p := by
  intro A budget hA hs hb r hr hd
  obtain ⟨es, hf, hes⟩ := foldlM_after (P := n.Notes s v p) (A := A)
    (d := n.heading.declaredType) ns
    (fun y m => do
      let z ← (y.2.note (.nested n m)).probe fun r => m.run s budget v p.path r
      return (y.1 + z.1.toNat, z.2))
    (fun passes m => passes + (m.accepts s v p).toNat)
    (fun m hm passes r hr hd => by
      obtain ⟨es, hp, hes⟩ := probe_nested hc hm (stay m hm) hA hs hb r hr hd
      refine ⟨es, ?_, hes⟩
      simp only [hp]
      rfl) 0 r hr hd
  rw [foldl_count, Nat.zero_add] at hf
  rw [reports_oneOf, run, hf]
  exact demand_after hes n.heading _ .oneOf v place p hd

theorem performs_checkAbsent {P : Event → Prop} (h : Heading) (p : Site) :
    Performs A d P (fun r => some (r.checkAbsent h p.path)) (h.absentReports p) := by
  intro r hr hd
  refine ⟨[], ?_, List.forall_mem_nil _⟩
  show some (r.checkAbsent h p.path) = _
  rw [GuardedRun.checkAbsent, Heading.absentReports]
  by_cases ha : (h.required && h.default.isNone) = true
  · rw [if_pos ha, if_pos ha, GuardedRun.report, GuardedRun.add_eq]
    rfl
  · rw [if_neg ha, if_neg ha, r.after_nil]

/-- One step of a check without verdicts. -/
def Action.runIn (s : Scope) (budget : Nat) (n : Node) (path : Path) (r : GuardedRun) :
    Action → Option GuardedRun
  | report kind value place => some (r.report path kind value place)
  | absent h below => some (r.checkAbsent h (path ++ [below]))
  | visit m w below => m.run s budget w (path ++ below.toList) (r.note (.nested n m))

theorem Check.run_direct (hc : c.direct = true) (r : GuardedRun) :
    c.run s budget n v p.path r =
      (c.actions v p.path).foldlM (fun r a => a.runIn s budget n p.path r) r := by
  cases c with
  | reference | schemaFormat | negation | anyOf | oneOf => simp [direct] at hc
  | _ =>
    rw [Check.run]
    · rw [List.foldlM_subtype (g := fun r a => a.runIn s budget n p.path r),
        List.unattach_attach]
      rintro r (_ | _ | _) _ <;> rfl
    all_goals intros; contradiction

theorem Site.path_at (p : Site) (below : Option Segment) :
    (p.at below).path = p.path ++ below.toList := by
  cases below with
  | none => exact (List.append_nil _).symm
  | some s => rfl

theorem performs_visit {P : Event → Prop} {m : Node} {w : Json} {below : Option Segment}
    (hnote : P (.nested n m))
    (hrun : Performs A d P (m.run s budget w (p.at below).path) (m.reports s w (p.at below))) :
    Performs A d P (fun r => (Action.visit m w below).runIn s budget n p.path r)
      (m.reports s w (p.at below)) := by
  rw [p.path_at] at hrun
  exact (Performs.note hnote).comp hrun

theorem Check.runs_direct (hc : c ∈ n.checks) (hd : c.direct = true)
    (stay : ∀ m ∈ c.nodesHere, m.Runs s v p)
    (down : ∀ m ∈ c.nodesBelow, ∀ w ∈ v.parts, ∀ seg, m.Runs s w (p.down seg)) :
    c.Runs s n v p := by
  intro A budget hA hs hb
  rw [reports_direct s v p n.heading hd, show c.run s budget n v p.path = _ from
    funext fun r => c.run_direct hd r]
  apply Performs.foldlM
  intro a ha
  cases a with
  | report kind value place => exact Performs.report p.path kind value place
  | absent h seg => exact performs_checkAbsent h (p.down seg)
  | visit m w below =>
    rcases mem_of_visit ha with ⟨rfl, rfl, hm⟩ | ⟨⟨seg, rfl⟩, hw, hm⟩
    · have hrun := stay m hm A budget n.heading.declaredType hA hs hb
      exact performs_visit ⟨c, hc, List.mem_append_left _ hm⟩
        (hrun.imp fun e => Node.Notes.stay hc hm)
    · have hrun := down m hm w hw seg A budget n.heading.declaredType (hA.down seg) hs
        (Nat.le_trans (Scope.budget_down w.height_pos (Json.height_lt_of_mem_parts hw) seg) hb)
      exact performs_visit ⟨c, hc, List.mem_append_right _ hm⟩
        (hrun.imp fun e => Node.Notes.down hc hm hw)

/-! ## Nodes -/

theorem performs_reportMissing {P : Event → Prop} {h : Heading} :
    Performs A h.declaredType P (fun r => some (r.reportMissing h v p.path))
      (h.missingReports v p) := by
  have hfold := Performs.foldlM (A := A) (d := h.declaredType) (P := P) (h.missing v)
    (f := fun r name =>
      some (r.report (p.path ++ [.name name]) .required (some v) (h.place "required")))
    fun name _ => Performs.report _ _ _ _
  intro r hr hd
  obtain ⟨es, hf, hes⟩ := hfold r hr hd
  refine ⟨es, ?_, hes⟩
  rw [Heading.missingReports, List.map_eq_flatMap]
  refine Eq.trans ?_ hf
  exact (List.foldlM_pure (m := Option)).symm

theorem Node.runs (hc : ∀ c ∈ n.checks, c.Runs s n v p) : n.Runs s v p := by
  obtain ⟨h, head, tail⟩ := n
  intro A budget d hA hs hb
  have hhead := Performs.foldlM head (f := fun r c => c.run s budget (.mk h head tail) v p.path r)
    fun c hm => hc c (List.mem_append_left tail hm) A budget hA hs hb
  have htail := Performs.foldlM tail (f := fun r c => c.run s budget (.mk h head tail) v p.path r)
    fun c hm => hc c (List.mem_append_right head hm) A budget hA hs hb
  have hmissing := performs_reportMissing (A := A) (v := v) (p := p) (h := h)
    (P := (Node.mk h head tail).Notes s v p)
  have hbody : Performs A h.declaredType ((Node.mk h head tail).Notes s v p)
      (fun r => if h.acceptsType v then do
          let r ← head.foldlM (fun r c => c.run s budget (.mk h head tail) v p.path r) r
          let r := r.reportMissing h v p.path
          if h.missing v = [] ∨ s.greedy = true then
            tail.foldlM (fun r c => c.run s budget (.mk h head tail) v p.path r) r
          else some r
        else some (r.report p.path .type (some v) (h.place "type")))
      ((Node.mk h head tail).reports s v p) := by
    rw [reports_mk]
    by_cases ht : h.acceptsType v = true
    · simp only [ht, if_true]
      by_cases hm : h.missing v = [] ∨ s.greedy = true
      · simp only [hm, if_true, List.append_assoc]
        exact hhead.comp (hmissing.comp htail)
      · simp only [hm, if_false, List.append_nil]
        exact hhead.comp hmissing
    · simp only [ht]
      exact Performs.report p.path .type (some v) (h.place "type")
  intro r hr hd
  obtain ⟨es, hf, hes⟩ := hbody { r with declaredType := h.declaredType } hr rfl
  refine ⟨es, ?_, hes⟩
  rw [run]
  exact congrArg (fun r' => r' >>= fun r' => some { r' with declaredType := r.declaredType }) hf

theorem runs_all (s : Scope) : (∀ (n : Node) v p, n.Runs s v p) ∧
    ∀ c v p, ∀ n : Node, c ∈ n.checks → Check.Runs s n c v p := by
  apply s.run_induction
  · intro n v p ih
    exact Node.runs fun c hc => ih c hc n hc
  · intro c v p stay down target n hc
    cases c using Check.byKind with
    | reference text place => exact Check.runs_reference hc fun m => target _ m rfl
    | schemaFormat name => exact Check.runs_schemaFormat hc fun m => target _ m rfl
    | negation m place => exact Check.runs_negation hc (stay m (by simp [Check.nodesHere]))
    | anyOf ns place => exact Check.runs_anyOf hc stay
    | oneOf ns place => exact Check.runs_oneOf hc stay
    | direct c hd =>
      exact Check.runs_direct hc hd stay fun m hm w hw seg => down m hm w hw seg

/-- **A guarded run makes the reports of the run.** With the active pairs that belong to the site,
and budget enough, it ends, adds exactly these reports to its tally, and asks only questions that
the run comes to, answered as the run answers them. -/
theorem Node.run_performs (s : Scope) (n : Node) (v : Json) (p : Site) : n.Runs s v p :=
  (runs_all s).1 n v p

theorem Check.run_performs (s : Scope) (n : Node) (v : Json) (p : Site) (hc : c ∈ n.checks) :
    c.Runs s n v p :=
  (runs_all s).2 c v p n hc

end Runs

end JsonSchema
