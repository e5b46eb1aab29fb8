import JsonSchema.Proofs.Answers
import JsonSchema.Proofs.Corresponding
import JsonSchema.Validator

/-!
# Runs side by side

Two runs may go over different values with different nodes: members in another order, numbers in
another form, the same keywords in another order. If the checks of both nodes can be paired so that
the checks of a pair look for the same things, both runs accept or both do not, whatever cycles of
targets there are.

* `Check.Mirrors`: checks that look for the same things, given which nodes and values go together;
* `Check.Mirrors.actions`: what such checks do is paired;
* `Scope.Simulates`: what has to be shown of the nodes and the values that go together;
* `Scope.Simulates.accepts_eq`, `Scope.Simulates.isValid_eq`: runs side by side.
-/

namespace JsonSchema

/-! ## Checks of a pair -/

inductive Dependency.Mirrors (N : Node → Node → Prop) : Dependency → Dependency → Prop
  | names (names : List String) {place place' : Path} :
      Mirrors N (.names names place) (.names names place')
  | schema {n n' : Node} : N n n' → Mirrors N (.schema n) (.schema n')

/-- Checks of one kind with nodes that go together. Rules find faults alike in the values that go
together. The entries of objects may be in another order. -/
inductive Check.Mirrors (V : Json → Json → Prop) (N : Node → Node → Prop) : Check → Check → Prop
  | rule {r r' : Rule} {place place' : Path} :
      (∀ v v', V v v' → (r.fault? v = none ↔ r'.fault? v' = none)) →
      Mirrors V N (.rule r place) (.rule r' place')
  | dependencies {entries entries' : List (String × Dependency)} :
      Paired (SameKey (Dependency.Mirrors N)) entries entries' →
      Mirrors V N (.dependencies entries) (.dependencies entries')
  | closed {declared declared' : Declared} {place place' : Path} :
      (∀ name, declared.has name = declared'.has name) →
      Mirrors V N (.closed declared place) (.closed declared' place')
  | additional {declared declared' : Declared} {n n' : Node} :
      (∀ name, declared.has name = declared'.has name) → N n n' →
      Mirrors V N (.additional declared n) (.additional declared' n')
  | reference (text : String) {place place' : Path} :
      Mirrors V N (.reference text place) (.reference text place')
  | schemaFormat (name : String) : Mirrors V N (.schemaFormat name) (.schemaFormat name)
  | negation {n n' : Node} {place place' : Path} : N n n' →
      Mirrors V N (.negation n place) (.negation n' place')
  | items {n n' : Node} : N n n' → Mirrors V N (.items n) (.items n')
  | patternProperties {entries entries' : List (Pattern × Node)} :
      Paired (SameKey N) entries entries' →
      Mirrors V N (.patternProperties entries) (.patternProperties entries')
  | allOf {ns ns' : List Node} : List.Forall₂ N ns ns' → Mirrors V N (.allOf ns) (.allOf ns')
  | anyOf {ns ns' : List Node} {place place' : Path} : List.Forall₂ N ns ns' →
      Mirrors V N (.anyOf ns place) (.anyOf ns' place')
  | oneOf {ns ns' : List Node} {place place' : Path} : List.Forall₂ N ns ns' →
      Mirrors V N (.oneOf ns place) (.oneOf ns' place')
  | tuple {ns ns' : List Node} : List.Forall₂ N ns ns' → Mirrors V N (.tuple ns) (.tuple ns')
  | properties {entries entries' : List (String × Node)} (skipNull : Bool) :
      Paired (SameKey N) entries entries' →
      Mirrors V N (.properties entries skipNull) (.properties entries' skipNull)
  | additionalItems (limit : Nat) {n n' : Node} : N n n' →
      Mirrors V N (.additionalItems limit n) (.additionalItems limit n')

inductive Action.Mirrors (V : Json → Json → Prop) (N : Node → Node → Prop) : Action → Action → Prop
  | report {kind kind' : Violation.Kind} {value value' : Option Json} {place place' : Path} :
      Mirrors V N (.report kind value place) (.report kind' value' place')
  | absent {n n' : Node} (seg : Segment) : N n n' →
      Mirrors V N (.absent n.heading seg) (.absent n'.heading seg)
  | visit {n n' : Node} {w w' : Json} (below : Option Segment) : N n n' → V w w' →
      Mirrors V N (.visit n w below) (.visit n' w' below)

section Actions

variable {V : Json → Json → Prop} {N : Node → Node → Prop} {v v' : Json} {path path' : Path}

theorem Action.Mirrors.part {n n' : Node} {x x' : Option Json} (seg : Segment) (hn : N n n') :
    Option.Rel V x x' → Mirrors V N
      (match x with
        | some w => .visit n w (some seg)
        | none => .absent n.heading seg)
      (match x' with
        | some w => .visit n' w (some seg)
        | none => .absent n'.heading seg) := by
  intro hx
  cases hx with
  | some hw => exact .visit (some seg) hn hw
  | none => exact .absent seg hn

theorem Members.has_eq {ms ms' : Members} {name : String}
    (h : Option.Rel V (ms.lookup name) (ms'.lookup name)) : ms.has name = ms'.has name := by
  rw [has, has]
  generalize ms.lookup name = x, ms'.lookup name = x' at h
  cases h <;> rfl

theorem Check.actions_dependencies {entries entries' : List (String × Dependency)}
    {ms ms' : Members} (h : Paired (SameKey (Dependency.Mirrors N)) entries entries')
    (hlookup : ∀ name, Option.Rel V (ms.lookup name) (ms'.lookup name))
    (hv : V (.object ms) (.object ms')) :
    Paired (Action.Mirrors V N) ((dependencies entries).actions (.object ms) path)
      ((dependencies entries').actions (.object ms') path') := by
  have hhas : ∀ name, ms.has name = ms'.has name := fun name => Members.has_eq (hlookup name)
  refine h.flatMap ?_
  rintro ⟨name, d⟩ ⟨name', d'⟩ ⟨hname, hd⟩
  obtain rfl : name = name' := hname
  show Paired _ (bif ms.has name then _ else []) (bif ms'.has name then _ else [])
  rw [← hhas name]
  cases ms.has name with
  | false => exact .nil
  | true =>
    cases hd with
    | schema hn => exact .singleton (.visit none hn hv)
    | names names =>
      have hall : (names.all fun name => ((Json.object ms).get? name).isSome) =
          names.all fun name => ((Json.object ms').get? name).isSome := by
        congr 1
        funext name
        exact hhas name
      dsimp only [cond_true]
      rw [← hall]
      cases names.all fun name => ((Json.object ms).get? name).isSome with
      | true => exact .nil
      | false => exact .singleton .report

/-- **What paired checks do is paired**, on values that go together. -/
theorem Check.Mirrors.actions {c c' : Check} (h : c.Mirrors V N c')
    (hV : ∀ v v', V v v' → v.SameShape V v') (hv : V v v') :
    Paired (Action.Mirrors V N) (c.actions v path) (c'.actions v' path') := by
  have hshape := hV v v' hv
  cases h with
  | @rule r r' place place' hr =>
    have hfault := hr v v' hv
    show Paired _ ((r.fault? v).toList.map _) ((r'.fault? v').toList.map _)
    cases hx : r.fault? v with
    | none =>
      rw [hfault.1 hx]
      exact .nil
    | some kind =>
      cases hy : r'.fault? v' with
      | none => rw [hfault.2 hy] at hx; cases hx
      | some kind' => exact .singleton .report
  | dependencies he =>
    cases hshape with
    | object _ _ hlookup => exact actions_dependencies he hlookup hv
    | _ => exact .nil
  | closed hdeclared =>
    cases hshape with
    | object _ hmembers _ =>
      refine (hmembers.filter fun e f hef => ?_).map fun e f hef => .report
      rw [hef.1, hdeclared]
    | _ => exact .nil
  | additional hdeclared hn =>
    cases hshape with
    | object _ hmembers _ =>
      refine (hmembers.filter fun e f hef => ?_).map fun e f hef => ?_
      · rw [hef.1, hdeclared]
      · rw [hef.1]
        exact .visit _ hn hef.2
    | _ => exact .nil
  | items hn =>
    cases hshape with
    | array hitems =>
      refine (Paired.of_forall₂ (forall₂_zipIdx hitems 0)).map fun x y hxy => ?_
      rw [hxy.2]
      exact .visit _ hn hxy.1
    | _ => exact .nil
  | patternProperties he =>
    cases hshape with
    | object _ hmembers _ =>
      refine hmembers.flatMap fun m m' hm => ?_
      refine (he.filter fun e f hef => ?_).map fun e f hef => ?_
      · rw [hef.1, hm.1]
      · rw [hm.1]
        exact .visit _ hef.2 hm.2
    | _ => exact .nil
  | allOf hns => exact (Paired.of_forall₂ hns).map fun n n' hn => .visit _ hn hv
  | tuple hns =>
    cases hshape with
    | array hitems =>
      refine (Paired.of_forall₂ (forall₂_zipIdx hns 0)).map fun x y hxy => ?_
      rw [hxy.2]
      exact .part _ hxy.1 (rel_getElem?_of_forall₂ hitems y.2)
    | _ => exact .nil
  | properties skipNull he =>
    have habsent {e f : String × Node} (hef : SameKey N e f) :
        Action.Mirrors V N (.absent e.2.heading (.name e.1)) (.absent f.2.heading (.name f.1)) := by
      rw [hef.1]
      exact .absent _ hef.2
    cases hshape with
    | object _ _ hlookup =>
      refine he.map fun e f hef => ?_
      rw [hef.1]
      exact .part _ hef.2 (hlookup f.1)
    | null =>
      cases skipNull with
      | true => exact .nil
      | false => exact he.map fun e f hef => habsent hef
    | _ => exact he.map fun e f hef => habsent hef
  | additionalItems limit hn =>
    cases hshape with
    | array hitems =>
      rw [Check.actions, Check.actions, zipIdx_drop_eq_filter, zipIdx_drop_eq_filter]
      have hall := Paired.of_forall₂ (forall₂_zipIdx hitems 0)
      refine (hall.filter fun x y hxy => ?_).map fun x y hxy => ?_
      · rw [hxy.2]
      · rw [hxy.2]
        exact .visit _ hn hxy.1
    | _ => exact .nil
  | _ => exact .nil

end Actions

/-! ## Runs -/

/-- What goes together in the runs of two scopes: values of one shape, and nodes whose headings and
checks, and the targets of the checks, go together. -/
structure Scope.Simulates (s s' : Scope) (V : Json → Json → Prop) (N : Node → Node → Prop) :
    Prop where
  value : ∀ v v', V v v' → v.SameShape V v'
  type : ∀ n n' v v', N n n' → V v v' →
    (n.heading.acceptsType v = true ↔ n'.heading.acceptsType v' = true)
  missing : ∀ n n' v v', N n n' → V v v' → (n.heading.missing v = [] ↔ n'.heading.missing v' = [])
  absent : ∀ n n', N n n' → (n.heading.allowsAbsent = true ↔ n'.heading.allowsAbsent = true)
  checks : ∀ n n', N n n' → Paired (Check.Mirrors V N) n.checks n'.checks
  target : ∀ n n', N n n' → ∀ c ∈ n.checks, ∀ k, c.target? = some k →
    Option.Rel N (s.subroutines.lookup k) (s'.subroutines.lookup k)

section Runs

variable {s s' : Scope} {V : Json → Json → Prop} {N : Node → Node → Prop} {v v' : Json}
  {p p' : Site}

theorem Action.holds_visit (n : Node) (w : Json) (seg : Segment) :
    (visit n w (some seg)).holds s.below (s.here v p) p.path = n.accepts s w (p.down seg) := by
  rw [Node.accepts_eq_holds]
  rfl

/-- The checks of a pair accept alike if their nodes and targets do. -/
theorem Scope.Simulates.holds_iff (h : s.Simulates s' V N) {c c' : Check} (hc : c.Mirrors V N c')
    (hv : V v v') (target : ∀ k, c.target? = some k → s.here v p k = s'.here v' p' k)
    (stay : ∀ n ∈ c.nodesHere, ∀ n', N n n' → n.accepts s v p = n'.accepts s' v' p')
    (down : ∀ n ∈ c.nodesBelow, ∀ w ∈ v.parts, ∀ seg n' w', N n n' → V w w' →
      n.accepts s w (p.down seg) = n'.accepts s' w' (p'.down seg)) :
    c.holds s.below (s.here v p) p.path v = true ↔
      c'.holds s'.below (s'.here v' p') p'.path v' = true := by
  have hdirect (hd : c.direct = true) (hd' : c'.direct = true) :
      c.holds s.below (s.here v p) p.path v = true ↔
        c'.holds s'.below (s'.here v' p') p'.path v' = true := by
    rw [Check.holds_direct _ _ _ _ hd, Check.holds_direct _ _ _ _ hd', List.all_eq_true,
      List.all_eq_true]
    refine (hc.actions h.value hv).forall_iff fun a ha a' ha' haa' => ?_
    cases haa' with
    | report => rfl
    | absent seg hn => exact h.absent _ _ hn
    | @visit n n' w w' below hn hw =>
      rcases Check.mem_of_visit ha with ⟨rfl, rfl, hmem⟩ | ⟨⟨seg, rfl⟩, hpart, hmem⟩
      · obtain ⟨-, rfl, -⟩ | ⟨⟨seg, hseg⟩, -⟩ := Check.mem_of_visit ha'
        · have hn := stay n hmem n' hn
          rw [Node.accepts_eq_holds, Node.accepts_eq_holds] at hn
          rw [Action.holds, Action.holds, hn]
        · cases hseg
      · rw [Action.holds_visit, Action.holds_visit, down n hmem w hpart seg n' w' hn hw]
  cases hc with
  | reference text =>
    rw [Check.holds_reference, Check.holds_reference, target _ rfl]
  | schemaFormat name =>
    rw [Check.holds_schemaFormat, Check.holds_schemaFormat, target _ rfl]
  | negation hn =>
    have hn := stay _ (by simp [Check.nodesHere]) _ hn
    rw [Node.accepts_eq_holds, Node.accepts_eq_holds] at hn
    rw [Check.holds_negation, Check.holds_negation, hn]
  | anyOf hns =>
    rw [Check.holds_anyOf, Check.holds_anyOf, List.any_eq_true, List.any_eq_true]
    refine (Paired.of_forall₂ hns).exists_iff fun n hmem n' _ hn => ?_
    rw [← Node.accepts_eq_holds, ← Node.accepts_eq_holds, stay n hmem n' hn]
  | oneOf hns =>
    rw [Check.holds_oneOf, Check.holds_oneOf, countP_eq_of_forall₂ hns fun n hmem n' hn => ?_]
    rw [← Node.accepts_eq_holds, ← Node.accepts_eq_holds, stay n hmem n' hn]
  | _ => exact hdirect rfl rfl

/-- A target counts alike in both runs if it is entered in both, or its nodes accept alike. -/
theorem Scope.here_congr {k : Target}
    (htarget : Option.Rel N (s.subroutines.lookup k) (s'.subroutines.lookup k))
    (hp : p.entered = p'.entered)
    (enter : ∀ n n', s.subroutines.lookup k = some n → k ∉ p.entered → N n n' →
      n.accepts s v (p.enter k) = n'.accepts s' v' (p'.enter k)) :
    s.here v p k = s'.here v' p' k := by
  rw [Scope.here, Scope.here, answers_eq, answers_eq, hp]
  generalize hl : s.subroutines.lookup k = x, s'.subroutines.lookup k = x' at htarget
  cases htarget with
  | none => rfl
  | @some n n' hn =>
    by_cases he : k ∈ p'.entered
    · simp [he]
    · simp only [he, decide_false, Bool.false_or]
      exact enter n n' hl (hp ▸ he) hn

/-- **Runs side by side** accept or do not accept values that go together, by nodes that go
together, at sites where the same targets are entered. -/
theorem Scope.Simulates.accepts_eq (h : s.Simulates s' V N) {n n' : Node} (hn : N n n')
    (hv : V v v') (hp : p.entered = p'.entered) : n.accepts s v p = n'.accepts s' v' p' := by
  have key : (∀ n v (p : Site), ∀ n' v' (p' : Site), N n n' → V v v' → p.entered = p'.entered →
      n.accepts s v p = n'.accepts s' v' p') ∧
      ∀ (c : Check) v (p : Site), ∀ c' v' (p' : Site), c.Mirrors V N c' →
        (∀ k, c.target? = some k →
          Option.Rel N (s.subroutines.lookup k) (s'.subroutines.lookup k)) →
        V v v' → p.entered = p'.entered →
        (c.holds s.below (s.here v p) p.path v = true ↔
          c'.holds s'.below (s'.here v' p') p'.path v' = true) := by
    -- by induction on the first run, of which the second one is a copy
    apply s.run_induction
    · intro n v p ih n' v' p' hn hv hp
      rw [Node.accepts_eq_holds, Node.accepts_eq_holds, Bool.eq_iff_iff, Node.holds_iff,
        Node.holds_iff, h.type n n' v v' hn hv, h.missing n n' v v' hn hv]
      refine and_congr_right fun _ => and_congr_right fun _ => ?_
      exact (h.checks n n' hn).forall_iff fun c hc c' _ hcc' =>
        ih c hc c' v' p' hcc' (h.target n n' hn c hc) hv hp
    · intro c v p stay down enter c' v' p' hc target hv hp
      refine h.holds_iff hc hv (fun k hk => ?_) (fun n hmem n' hn => ?_) ?_
      · refine here_congr (target k hk) hp fun n n' hl he hn => ?_
        exact enter k n hk hl he n' v' _ hn hv (congrArg (k :: ·) hp)
      · exact stay n hmem n' v' p' hn hv hp
      · exact fun n hmem w hw seg n' w' hn hV => down n hmem w hw seg n' w' _ hn hV rfl
  exact key.1 n v p n' v' p' hn hv hp

theorem Scope.Simulates.isValid_eq {w w' : Validator} (h : w.scope.Simulates w'.scope V N)
    (hroot : N w.root w'.root) (hv : V v v') : w.isValid v = w'.isValid v' := by
  have hstart : ({} : Site).entered = ({} : Site).entered := rfl
  exact h.accepts_eq hroot hv hstart

end Runs

end JsonSchema
