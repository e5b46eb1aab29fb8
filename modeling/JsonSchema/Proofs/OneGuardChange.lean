import JsonSchema.Proofs.Following
import JsonSchema.Proofs.Unfilled

/-!
# One guard for a whole mutating run

Where a mutating run ends within its levels, so does the run with one guard, as soon as its budget
is large enough: the two leave the same value and make the same reports, also where defaults are
filled in.

* `realizes`: steps on one guard that end as a step on a tally does, once the budget is large;
* `Node.realized`: a mutating run on one guard ends as the mutating run.
-/

namespace JsonSchema

open GuardedRun (step under)

/-! ## Steps with budget enough -/

/-- Where a step on one tally ends, it ends on every tally with the same reports, and steps with a
budget do alike once the budget is large enough, from all states in which certain targets are
active and the current node has a certain declared type. -/
def realizes (s : Scope) (A : List (Target × Path)) (d : Option Json) :
    Alike (StateT Tally Option) (ReaderT Nat (StateT GuardedRun Option)) where
  results := True
  rel g f := ∀ t a t', g t = some (a, t') → ∃ vs enough,
    (∀ u, g u = some (a, u.reportAll vs)) ∧ ∀ budget, enough ≤ budget →
      ∀ r : GuardedRun, r.active = A → r.declaredType = d → ∃ es,
        f budget r = some (a, r.after vs es) ∧ ∀ e ∈ es, e.Safe s
  pure := by
    intro α a b hab t c t' ht
    cases ht
    cases hab True.intro
    refine ⟨[], 0, fun _ => rfl, fun _ _ r _ _ => ⟨[], ?_, List.forall_mem_nil _⟩⟩
    rw [r.after_nil]
    rfl
  bind := by
    intro α β x y f g hxy hfg t c t' ht
    obtain ⟨⟨a, u⟩, hx, hf⟩ := Option.bind_eq_some_iff.mp ht
    obtain ⟨vs, b₁, hx', hy⟩ := hxy t a u hx
    obtain ⟨ws, b₂, hf', hg⟩ := hfg a a (fun _ => rfl) u c t' hf
    refine ⟨vs ++ ws, max b₁ b₂, fun u => ?_, fun budget hb r hr hd => ?_⟩
    · show (x u >>= fun z => f z.1 z.2) = _
      rw [hx', u.reportAll_append]
      exact hf' _
    obtain ⟨es, hy, hes⟩ := hy budget (le_of_max_le_left hb) r hr hd
    obtain ⟨fs, hg, hfs⟩ := hg budget (le_of_max_le_right hb) (r.after vs es) hr hd
    refine ⟨es ++ fs, ?_, fun e h => (List.mem_append.mp h).elim (hes e) (hfs e)⟩
    show (y budget r >>= fun z => g z.1 budget z.2) = _
    rw [hy, ← r.after_after]
    exact hg

/-- The steps with a certain budget. -/
def within (budget : Nat) :
    Alike (ReaderT Nat (StateT GuardedRun Option)) (StateT GuardedRun Option) where
  results := True
  rel f g := f budget = g
  pure := by
    intro α a b hab
    rw [hab True.intro]
    rfl
  bind := by
    rintro α β x _ f g rfl hfg
    funext r
    have hrest : ∀ y : α × GuardedRun, f y.1 budget y.2 = g y.1 y.2 := fun y =>
      congrFun (hfg y.1 y.1 fun _ => rfl) y.2
    exact congrArg (Option.bind (x budget r)) (funext hrest)

section Steps

variable {s : Scope} {A : List (Target × Path)} {d : Option Json} {α : Type}

/-- A step that only looks at the value. -/
theorem realizes_look {g : StateT Tally Option Unit} {f : Nat → GuardedRun → Option GuardedRun}
    {vs : List Violation} (enough : Nat) (hg : ∀ t, g t = some ((), t.reportAll vs))
    (hf : ∀ budget, enough ≤ budget → Performs A d (Event.Safe s) (f budget) vs) :
    (realizes s A d).rel g (fun budget => step (f budget)) := by
  intro t a t' ht
  cases (hg t).symm.trans ht
  refine ⟨vs, enough, hg, fun budget hb r hr hd => ?_⟩
  obtain ⟨es, hf, hes⟩ := hf budget hb r hr hd
  refine ⟨es, ?_, hes⟩
  show (f budget r >>= fun r => some ((), r)) = _
  rw [hf]
  rfl

/-- A step under a declared type of its own does as much from states with any other one. -/
theorem realizes_under {g : StateT Tally Option α}
    {f : ReaderT Nat (StateT GuardedRun Option) α} (h : (realizes s A d).rel g f)
    {t t' : Tally} {a : α} (ht : g t = some (a, t')) :
    ∃ vs enough, (∀ u, g u = some (a, u.reportAll vs)) ∧ ∀ budget, enough ≤ budget →
      ∀ r : GuardedRun, r.active = A → ∃ es, under d (f budget) r = some (a, r.after vs es) ∧
        ∀ e ∈ es, e.Safe s := by
  obtain ⟨vs, enough, hg, h⟩ := h t a t' ht
  refine ⟨vs, enough, hg, fun budget hb r hr => ?_⟩
  obtain ⟨es, hf, hes⟩ := h budget hb { r with declaredType := d } hr rfl
  refine ⟨es, ?_, hes⟩
  show (f budget { r with declaredType := d } >>= _) = _
  rw [hf]
  rfl

end Steps

/-! ## Checks -/

/-- The steps of a mutating run with one guard, by its budget. -/
def Check.budgeting (s : Scope) (m : Changes) (n : Node) (path : Path) :
    Changer (ReaderT Nat (StateT GuardedRun Option)) where
  visit k w below budget := (changing s m budget n path).visit k w below
  reference text place v budget := (changing s m budget n path).reference text place v
  schemaFormat name v budget := (changing s m budget n path).schemaFormat name v
  look c v budget := (changing s m budget n path).look c v
  names names place v budget := (changing s m budget n path).names names place v
  absent h seg budget := (changing s m budget n path).absent h seg
  down budget := (changing s m budget n path).down

theorem Check.budgeting_check (s : Scope) (m : Changes) (n : Node) (path : Path) (c : Check)
    (v : Json) (budget : Nat) :
    (budgeting s m n path).check m c v budget = (changing s m budget n path).check m c v := by
  have h : (within budget).Changers (budgeting s m n path) (changing s m budget n path) c := by
    constructor <;> intros <;> rfl
  exact h.check True.intro m v

/-- What a mutating run with one guard makes of a node under its declared type, by the budget. -/
def Node.budgeting (s : Scope) (m : Changes) (n : Node) (path : Path) (v : Json) :
    ReaderT Nat (StateT GuardedRun Option) Json :=
  n.changing s.greedy ((Check.budgeting s m n path).check m)
    (fun v _ => step fun r => some (r.reportMissing n.heading v path))
    (fun v _ => step fun r => some (r.report path .type (some v) (n.heading.place "type"))) v

theorem Node.under_budgeting (s : Scope) (m : Changes) (n : Node) (path : Path) (v : Json)
    (budget : Nat) :
    under n.heading.declaredType (n.budgeting s m path v budget) = n.change s m budget v path := by
  have h : n.budgeting s m path v budget = _ := (within budget).changing True.intro
    (fun c _ v => Check.budgeting_check s m n path c v budget) (fun _ => rfl) (fun _ => rfl) v
  funext r
  rw [h]
  exact (n.change_eq s m budget path v r).symm

/-- A node that changes every value on one guard, with budget enough, as it does without. -/
def Node.Realized (s : Scope) (m : Changes) (n : Node) (depth : Nat) (p : Site) : Prop :=
  ∀ A, p.Guards A → s.Sound A → ∀ v t w t', n.apply s m depth v p t = some (w, t') →
    ∃ vs enough, (∀ u, n.apply s m depth v p u = some (w, u.reportAll vs)) ∧
      ∀ budget, enough ≤ budget → ∀ r : GuardedRun, r.active = A → ∃ es,
        n.change s m budget v p.path r = some (w, r.after vs es) ∧ ∀ e ∈ es, e.Safe s

section Runs

variable {s : Scope} {m : Changes} {n : Node} {c : Check} {depth : Nat} {p : Site}
  {A : List (Target × Path)}

theorem Check.realized_visit {k : Node} {level : Nat} {q : Site} {below : Option Segment} {w : Json}
    {d : Option Json} (hk : k.PartOf n) (hq : q.path = p.path ++ below.toList)
    (h : k.Realized s m level q) (hA : q.Guards A) (hs : s.Sound A) :
    (realizes s A d).rel (k.apply s m level w q) ((budgeting s m n p.path).visit k w below) := by
  intro t a t' ht
  obtain ⟨vs, enough, happly, h⟩ := h A hA hs w t a t' ht
  refine ⟨vs, enough, happly, fun budget hb r hr _ => ?_⟩
  obtain ⟨es, hf, hes⟩ := h budget hb (r.note (.nested n k)) hr
  refine ⟨.nested n k :: es, ?_, List.forall_mem_cons.mpr ⟨hk, hes⟩⟩
  rw [hq, r.note_eq, r.after_after] at hf
  show k.change s m budget w _ (r.note (.nested n k)) = _
  rw [r.note_eq]
  exact hf

theorem Check.realized_reference {text : String} {place : Path} (hA : p.Guards A) (hs : s.Sound A)
    (target : ∀ k, s.subroutines.lookup (.reference text) = some k → .reference text ∉ p.entered →
      k.Realized s m depth (p.enter (.reference text))) (v : Json) :
    (realizes s A n.heading.declaredType).rel
      ((applying s m depth n.heading p).reference text place v)
      ((budgeting s m n p.path).reference text place v) := by
  intro t w t' ht
  have happly := fun u =>
    apply_reference (s := s) (m := m) (p := p) depth n.heading text place v u
  cases hk : s.subroutines.lookup (.reference text) with
  | none =>
    simp only [hk] at happly
    cases (happly t).symm.trans ht
    refine ⟨[], 0, happly, fun budget _ r _ _ => ⟨[], ?_, List.forall_mem_nil _⟩⟩
    show (reference text place).change s m budget n v p.path r = _
    simp only [change, hk, r.after_nil]
  | some k =>
    simp only [hk] at happly
    by_cases he : .reference text ∈ p.entered
    · simp only [he, if_true] at happly
      cases (happly t).symm.trans ht
      refine ⟨[], 0, happly, fun budget _ r hr hd => ?_⟩
      show ∃ es, (reference text place).change s m budget n v p.path r = _ ∧ _
      simp only [change, hk]
      exact demand_of_yields n.heading .reference place (yields_entered he hA hs _) r hr hd
    · simp only [he, if_false] at happly
      obtain ⟨⟨x, inner⟩, hx, hdemand⟩ := Option.bind_eq_some_iff.mp ((happly t).symm.trans ht)
      cases hdemand
      obtain ⟨vs, enough, hx, hchange⟩ := target k hk he _ (hA.enter (.reference text))
        (hs.enter hk fun h => he ((hA.mem_iff _).mp h)) v _ _ _ hx
      have hpass : (((Tally.start .off).reportAll vs).count == 0) = vs.isEmpty :=
        Emits.passes (f := fun t => t.reportAll vs) fun t => rfl
      refine ⟨n.heading.demandReports vs.isEmpty .reference x place p, enough + 1, fun u => ?_,
        fun budget hb r hr hd => ?_⟩
      · refine (happly u).trans ?_
        rw [hx, ← n.heading.emits_demand vs.isEmpty .reference x place p u, ← hpass]
        rfl
      · obtain ⟨rest, rfl⟩ : ∃ rest, budget = rest + 1 := ⟨budget - 1, by omega⟩
        have hrest := yields_probeChange fun r hr (_ : r.declaredType = n.heading.declaredType) =>
          hchange rest (by omega) r hr
        show ∃ es, (reference text place).change s m (rest + 1) n v p.path r = _ ∧ _
        simp only [change, hk]
        exact demand_of_yields n.heading .reference place (yields_enter hk he hA hs hrest) r hr hd

theorem Check.realized_schemaFormat {name : String} (hA : p.Guards A) (hs : s.Sound A)
    (target : ∀ k, s.subroutines.lookup (.format name) = some k → .format name ∉ p.entered →
      k.Realized s m depth (p.enter (.format name))) (v : Json) :
    (realizes s A n.heading.declaredType).rel
      ((applying s m depth n.heading p).schemaFormat name v)
      ((budgeting s m n p.path).schemaFormat name v) := by
  intro t w t' ht
  have happly := fun u => apply_schemaFormat (s := s) (m := m) (p := p) depth n.heading name v u
  cases hk : s.subroutines.lookup (.format name) with
  | none =>
    simp only [hk] at happly
    cases (happly t).symm.trans ht
    refine ⟨[], 0, happly, fun budget _ r _ _ => ⟨[], ?_, List.forall_mem_nil _⟩⟩
    show (schemaFormat name).change s m budget n v p.path r = _
    simp only [change, hk, r.after_nil]
  | some k =>
    simp only [hk] at happly
    by_cases he : .format name ∈ p.entered
    · simp only [he, if_true] at happly
      cases (happly t).symm.trans ht
      refine ⟨[], 0, happly, fun budget _ r hr hd => ?_⟩
      obtain ⟨es, hy, hes⟩ := yields_entered (v := v) he hA hs
        (fun r => spend budget fun rest _ => r.watchChange fun r =>
          k.change s m rest v p.path r) r hr hd
      refine ⟨es, ?_, hes⟩
      show (schemaFormat name).change s m budget n v p.path r = _
      simp only [change, hk]
      exact congrArg (· >>= fun x => some x.2) hy
    · simp only [he, if_false] at happly
      obtain ⟨vs, enough, hx, hchange⟩ := target k hk he _ (hA.enter (.format name))
        (hs.enter hk fun h => he ((hA.mem_iff _).mp h)) v _ _ _ ((happly t).symm.trans ht)
      refine ⟨vs, enough + 1, fun u => (happly u).trans (hx u), fun budget hb r hr hd => ?_⟩
      obtain ⟨rest, rfl⟩ : ∃ rest, budget = rest + 1 := ⟨budget - 1, by omega⟩
      obtain ⟨es, hy, hes⟩ := yields_enter hk he hA hs
        (yields_watchChange fun r hr _ => hchange rest (by omega) r hr) r hr hd
      refine ⟨es, ?_, hes⟩
      show (schemaFormat name).change s m (rest + 1) n v p.path r = _
      simp only [change, hk]
      exact congrArg (· >>= fun x => some x.2) hy

/-- A check that only looks at the value makes the reports of its run. -/
theorem Check.realized_look (hc : c ∈ n.checks) (hA : p.Guards A) (hs : s.Sound A) (v : Json) :
    (realizes s A n.heading.declaredType).rel ((applying s m depth n.heading p).look c v)
      ((budgeting s m n p.path).look c v) := by
  have hcheck : ∀ t, (applying s m depth n.heading p).look c v t =
      some ((), t.reportAll (c.reports s n.heading v p)) := fun t =>
    congrArg (fun t => some ((), t)) (c.check_eq s v p n.heading t)
  refine realizes_look (s.budget v.height p) hcheck fun budget hb => ?_
  exact (c.run_performs s n v p hc A budget hA hs hb).imp fun e => Node.Notes.safe

theorem Check.realized (hc : c ∈ n.checks) (hA : p.Guards A) (hs : s.Sound A)
    (here : ∀ k ∈ c.nodesHere, k.Realized s m depth p)
    (below : ∀ k ∈ c.nodesBelow, ∀ level < depth, ∀ seg, k.Realized s m level (p.down seg))
    (target : ∀ k k', c.target? = some k → s.subroutines.lookup k = some k' → k ∉ p.entered →
      k'.Realized s m depth (p.enter k)) :
    (realizes s A n.heading.declaredType).Changers (applying s m depth n.heading p)
      (budgeting s m n p.path) c := by
  constructor
  case here =>
    intro k hk v
    exact realized_visit ⟨c, hc, List.mem_append_left _ hk.mem_here⟩ (List.append_nil _).symm
      (here k hk.mem_here) hA hs
  case below =>
    intro k seg hk v
    cases depth with
    | zero =>
      intro t a t' ht
      cases ht
    | succ level =>
      exact realized_visit ⟨c, hc, List.mem_append_right _ hk.mem_below⟩ rfl
        (below k hk.mem_below level (Nat.lt_succ_self _) seg) (hA.down seg) hs
  case reference =>
    rintro text place rfl v
    exact realized_reference hA hs (fun k hk he => target _ k rfl hk he) v
  case schemaFormat =>
    rintro name rfl v
    exact realized_schemaFormat hA hs (fun k hk he => target _ k rfl hk he) v
  case look => exact realized_look hc hA hs
  case names =>
    intro names place v
    refine realizes_look 0 (fun t => ?_) fun budget _ => Performs.demand _ _ _ _ _
    show some ((), (Dependency.names names place).check s n.heading v p t) = _
    rw [Dependency.check]
    exact congrArg (fun t => some ((), t)) (n.heading.emits_demand _ .dependencies v place p t)
  case absent =>
    intro h seg
    refine realizes_look 0 (fun t => ?_) fun budget _ =>
      performs_checkAbsent h (p.down seg)
    exact congrArg (fun t => some ((), t)) (h.emits_checkAbsent (p.down seg) t)
  case down =>
    cases depth with
    | zero =>
      intro t a t' ht
      cases ht
    | succ level => exact (realizes s A n.heading.declaredType).same ()

/-! ## Nodes -/

theorem Node.realized_mk (hc : ∀ c ∈ n.checks, ∀ A, p.Guards A → s.Sound A →
      (realizes s A n.heading.declaredType).Changers (Check.applying s m depth n.heading p)
        (Check.budgeting s m n p.path) c) :
    n.Realized s m depth p := by
  intro A hA hs v t w t' ht
  have hbody : (realizes s A n.heading.declaredType).rel (n.apply s m depth v p)
      (n.budgeting s m p.path v) := by
    rw [funext (n.apply_eq s m depth p v)]
    refine (realizes s A n.heading.declaredType).changing True.intro
      (fun c hmem v => (hc c hmem A hA hs).check True.intro m v) (fun v => ?_) (fun v => ?_) v
    · refine realizes_look 0 (fun t => ?_) fun budget _ => performs_reportMissing
      exact congrArg (fun t => some ((), t)) (n.heading.emits_reportMissing v p t)
    · exact realizes_look 0 (fun t => rfl) fun budget _ => Performs.report _ _ _ _
  simp only [← n.under_budgeting s m p.path v]
  exact realizes_under hbody ht

/-- **A mutating run with one guard ends as the mutating run does**, once its budget is large
enough: it leaves the same value and makes the same reports, whether or not defaults are filled
in, and the active targets stay distinct throughout. -/
theorem Node.realized (s : Scope) (m : Changes) (n : Node) (depth : Nat) (p : Site) :
    n.Realized s m depth p := by
  have key : (∀ (n : Node) depth p, n.Realized s m depth p) ∧
      ∀ c depth p, ∀ n : Node, c ∈ n.checks → ∀ A, p.Guards A → s.Sound A →
        (realizes s A n.heading.declaredType).Changers (Check.applying s m depth n.heading p)
          (Check.budgeting s m n p.path) c := by
    apply s.level_induction
    · exact fun n depth p ih => Node.realized_mk fun c hc => ih c hc n hc
    · exact fun c depth p here below target n hc A hA hs =>
        Check.realized hc hA hs here below target
  exact key.1 n depth p

end Runs

end JsonSchema
