import JsonSchema.Proofs.Reports

/-!
# Acceptance

Whether a node accepts a value is a plain recursion on the node, once it is known how the targets
are answered. The order of the checks, the greedy setting and the sites play no part in it, and
the entered targets matter only through the answers on the value itself.

* `Node.holds`, `Check.holds`: acceptance under given answers;
* `Node.holds_iff`: a node accepts what its heading and all its checks accept;
* `Node.accepts_eq_holds`: a run accepts a value when the answers of the run do.
-/

namespace JsonSchema

/-- Whether an absent value is accepted. -/
def Heading.allowsAbsent (h : Heading) : Bool := !(h.required && h.default.isNone)

/-! ## Acceptance under given answers -/

/-- An answer for every target on the value at a path. -/
abbrev Answers := Target → Path → Json → Bool

mutual
/-- Whether a node accepts the value at a path, when `here` answers for the targets on the value
itself and `below` for those on its parts. -/
def Node.holds (below : Answers) (n : Node) (here : Target → Bool) (path : Path) (v : Json) :
    Bool :=
  match n with
  | .mk h head tail =>
    h.acceptsType v && (h.missing v).isEmpty &&
      ((head.map fun c => c.holds below here path v).all id &&
        (tail.map fun c => c.holds below here path v).all id)
termination_by sizeOf n
decreasing_by
  all_goals have := List.sizeOf_lt_of_mem ‹_ ∈ _›
  all_goals simp only [Node.mk.sizeOf_spec]
  all_goals omega

def Check.holds (below : Answers) (c : Check) (here : Target → Bool) (path : Path) (v : Json) :
    Bool :=
  match c with
  | .reference text _ => here (.reference text)
  | .schemaFormat name => here (.format name)
  | .negation n _ => !n.holds below here path v
  | .anyOf ns _ => (ns.map fun n => n.holds below here path v).any id
  | .oneOf ns _ => (ns.map fun n => n.holds below here path v).count true == 1
  | c => (c.actions v path).attach.all fun
    | ⟨.report .., _⟩ => false
    | ⟨.absent h _, _⟩ => h.allowsAbsent
    | ⟨.visit n w none, _⟩ => n.holds below here path w
    | ⟨.visit n w (some s), _⟩ =>
      n.holds below (fun k => below k (path ++ [s]) w) (path ++ [s]) w
termination_by sizeOf c
decreasing_by
  all_goals try simp only [Check.negation.sizeOf_spec, Check.anyOf.sizeOf_spec,
    Check.oneOf.sizeOf_spec]
  · omega
  · have := List.sizeOf_lt_of_mem ‹_ ∈ ns›
    omega
  · have := List.sizeOf_lt_of_mem ‹_ ∈ ns›
    omega
  · exact Check.sizeOf_lt_of_visit ‹_›
  · exact Check.sizeOf_lt_of_visit ‹_›
end

/-- Whether an action of a check reports nothing, under given answers. -/
def Action.holds (below : Answers) (here : Target → Bool) (path : Path) : Action → Bool
  | report .. => false
  | absent h _ => h.allowsAbsent
  | visit n w none => n.holds below here path w
  | visit n w (some s) => n.holds below (fun k => below k (path ++ [s]) w) (path ++ [s]) w

section Holds

variable (below : Answers) (here : Target → Bool) (path : Path) (v : Json)

/-- **A node accepts what its heading and all its checks accept.** -/
theorem Node.holds_iff (n : Node) :
    n.holds below here path v = true ↔
      n.heading.acceptsType v = true ∧ n.heading.missing v = [] ∧
        ∀ c ∈ n.checks, c.holds below here path v = true := by
  obtain ⟨h, head, tail⟩ := n
  rw [Node.holds]
  simp only [Bool.and_eq_true, List.isEmpty_iff, List.all_map, List.all_eq_true, Node.heading,
    Node.checks, List.mem_append, and_assoc, Function.comp, id]
  constructor
  · rintro ⟨ht, hm, hhead, htail⟩
    exact ⟨ht, hm, fun c hc => hc.elim (hhead c) (htail c)⟩
  · rintro ⟨ht, hm, hc⟩
    exact ⟨ht, hm, fun c h => hc c (Or.inl h), fun c h => hc c (Or.inr h)⟩

theorem Check.holds_reference (text : String) (place : Path) :
    (reference text place).holds below here path v = here (.reference text) := by
  rw [Check.holds]

theorem Check.holds_schemaFormat (name : String) :
    (schemaFormat name).holds below here path v = here (.format name) := by
  rw [Check.holds]

theorem Check.holds_negation (n : Node) (place : Path) :
    (negation n place).holds below here path v = !n.holds below here path v := by
  rw [Check.holds]

theorem Check.holds_anyOf (ns : List Node) (place : Path) :
    (anyOf ns place).holds below here path v = ns.any fun n => n.holds below here path v := by
  rw [Check.holds, List.any_map]
  rfl

theorem Check.holds_oneOf (ns : List Node) (place : Path) :
    (oneOf ns place).holds below here path v =
      (ns.countP (fun n => n.holds below here path v) == 1) := by
  have hc : (ns.map fun n => n.holds below here path v).count true =
      ns.countP fun n => n.holds below here path v := by
    rw [List.count, List.countP_map]
    congr 1
    funext n
    simp
  rw [Check.holds, hc]

theorem Check.holds_direct {c : Check} (hc : c.direct = true) :
    c.holds below here path v = (c.actions v path).all (Action.holds below here path) := by
  have ha : ((c.actions v path).attach.all fun
      | ⟨.report .., _⟩ => false
      | ⟨.absent h _, _⟩ => h.allowsAbsent
      | ⟨.visit n w none, _⟩ => n.holds below here path w
      | ⟨.visit n w (some s), _⟩ =>
        n.holds below (fun k => below k (path ++ [s]) w) (path ++ [s]) w) =
      (c.actions v path).all (Action.holds below here path) := by
    rw [List.all_subtype (g := Action.holds below here path), List.unattach_attach]
    rintro (_ | _ | ⟨n, w, _ | s⟩) _ <;> rfl
  rw [← ha]
  cases c with
  | reference | schemaFormat | negation | anyOf | oneOf => simp [direct] at hc
  | _ => rw [Check.holds] <;> intros <;> contradiction

end Holds

/-! ## Acceptance of a run -/

theorem Heading.demandReports_eq_nil {h : Heading} {holds : Bool} {kind : Violation.Kind}
    {v : Json} {place : Path} {p : Site} :
    h.demandReports holds kind v place p = [] ↔ holds = true := by
  rw [demandReports]
  cases holds <;> simp

theorem Heading.absentReports_eq_nil {h : Heading} {p : Site} :
    h.absentReports p = [] ↔ h.allowsAbsent = true := by
  rw [absentReports, allowsAbsent]
  cases h.required && h.default.isNone <;> simp

theorem Node.accepts_eq_isEmpty (s : Scope) (n : Node) (v : Json) (p : Site) :
    n.accepts s v p = (n.reports s v p).isEmpty :=
  Emits.passes fun t => n.check_eq s v p t

theorem Node.reports_eq_nil {s : Scope} {n : Node} {v : Json} {p : Site} :
    n.reports s v p = [] ↔ n.accepts s v p = true := by
  rw [accepts_eq_isEmpty, List.isEmpty_iff]

/-- The answers of a run to the targets on parts of the value, on which none is entered. -/
def Scope.below (s : Scope) : Answers := fun k path w => Check.answers s k w ⟨path, []⟩

/-- The answers of a run to the targets on the value itself. -/
def Scope.here (s : Scope) (v : Json) (p : Site) (k : Target) : Bool := Check.answers s k v p

section Runs

variable (s : Scope)

/-- Nothing is reported by a node whose heading and checks report nothing: after a missing member
the rest of the checks makes no difference. -/
theorem Node.reports_eq_nil_iff (n : Node) (v : Json) (p : Site) :
    n.reports s v p = [] ↔ n.heading.acceptsType v = true ∧ n.heading.missing v = [] ∧
      ∀ c ∈ n.checks, c.reports s n.heading v p = [] := by
  obtain ⟨h, head, tail⟩ := n
  rw [reports_mk]
  cases ht : h.acceptsType v with
  | false => simp [heading, ht]
  | true =>
    by_cases hm : h.missing v = []
    · simp [heading, checks, ht, hm, Heading.missingReports, List.flatMap_eq_nil_iff, or_imp,
        forall_and]
    · simp [heading, hm, Heading.missingReports]

/-- The answers on the value decide whether a format that is a schema reports anything. -/
theorem Check.reports_schemaFormat_eq_nil (h : Heading) (name : String) (v : Json) (p : Site) :
    (schemaFormat name).reports s h v p = [] ↔ answers s (.format name) v p = true := by
  rw [reports_schemaFormat, answers]
  cases hl : s.subroutines.lookup (.format name) with
  | none => simp
  | some n =>
    by_cases hk : .format name ∈ p.entered
    · simp [hk]
    · simp only [hk, if_false, decide_false, Bool.false_or]
      exact Node.reports_eq_nil

theorem Check.reports_direct_eq_nil (h : Heading) {c : Check} (hc : c.direct = true) (v : Json)
    (p : Site)
    (stay : ∀ n ∈ c.nodesHere, n.accepts s v p = n.holds s.below (s.here v p) p.path v)
    (down : ∀ n ∈ c.nodesBelow, ∀ w ∈ v.parts, ∀ seg, n.accepts s w (p.down seg) =
      n.holds s.below (s.here w (p.down seg)) (p.down seg).path w) :
    c.reports s h v p = [] ↔ c.holds s.below (s.here v p) p.path v = true := by
  rw [reports_direct s v p h hc, holds_direct _ _ _ _ hc, List.flatMap_eq_nil_iff,
    List.all_eq_true]
  refine forall₂_congr fun a ha => ?_
  cases a with
  | report kind value place => simp [Action.reports, Action.holds]
  | absent h' seg => exact h'.absentReports_eq_nil
  | visit n w below =>
    rw [Action.reports, Node.reports_eq_nil]
    rcases Check.mem_of_visit ha with ⟨rfl, rfl, hn⟩ | ⟨⟨seg, rfl⟩, hw, hn⟩
    · rw [Action.holds, ← stay n hn]
      rfl
    · rw [Action.holds]
      show n.accepts s w (p.down seg) = true ↔ _
      rw [down n hn w hw seg]
      rfl

theorem accepts_holds :
    (∀ n v p, Node.accepts s n v p = n.holds s.below (s.here v p) p.path v) ∧
      ∀ c v p, ∀ h, Check.reports s h c v p = [] ↔
        c.holds s.below (s.here v p) p.path v = true := by
  apply s.run_induction
  · intro n v p hc
    rw [Bool.eq_iff_iff, ← Node.reports_eq_nil, Node.reports_eq_nil_iff, Node.holds_iff]
    have hcs : (∀ c ∈ n.checks, c.reports s n.heading v p = []) ↔
        ∀ c ∈ n.checks, c.holds s.below (s.here v p) p.path v = true :=
      forall₂_congr fun c h => hc c h n.heading
    rw [hcs]
  · intro c v p stay down _ h
    cases c using Check.byKind with
    | reference text place =>
      rw [Check.reports_reference, Check.holds_reference, Heading.demandReports_eq_nil]
      rfl
    | schemaFormat name =>
      rw [Check.reports_schemaFormat_eq_nil, Check.holds_schemaFormat]
      rfl
    | negation n place =>
      have hn := stay n (by simp [Check.nodesHere])
      rw [Check.reports_negation, Check.holds_negation, Heading.demandReports_eq_nil, hn]
    | anyOf ns place =>
      rw [Check.reports_anyOf, Check.holds_anyOf, Heading.demandReports_eq_nil, List.any_eq_true,
        List.any_eq_true]
      exact exists_congr fun n => and_congr_right fun hn => by rw [stay n hn]
    | oneOf ns place =>
      rw [Check.reports_oneOf, Check.holds_oneOf, Heading.demandReports_eq_nil,
        List.countP_congr fun n hn => by rw [stay n hn]]
    | direct c hc =>
      exact Check.reports_direct_eq_nil s h hc v p stay fun n hn w hw seg =>
        down n hn w hw seg

/-- **A run accepts a value when the answers of the run do.** -/
theorem Node.accepts_eq_holds (n : Node) (v : Json) (p : Site) :
    n.accepts s v p = n.holds s.below (s.here v p) p.path v :=
  (accepts_holds s).1 n v p

end Runs

end JsonSchema
