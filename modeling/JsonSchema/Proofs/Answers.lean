import JsonSchema.Proofs.Acceptance

/-!
# Changing the answers

What a node accepts changes with the answers to the targets that it mentions, and with no others.
Without negation and without counting it only grows when the answers do.

* `Node.Mentions`: a node may ask for a target on the value itself;
* `Node.holds_congr`: only the answers to mentioned targets matter;
* `Node.holds_mono`: positive nodes accept more under more answers;
* `Node.accepts_path`: a run accepts the same values at every path.
-/

namespace JsonSchema

theorem Node.induction {P : Node → Prop} {Q : Check → Prop}
    (node : ∀ n : Node, (∀ c ∈ n.checks, Q c) → P n)
    (check : ∀ c : Check, (∀ n ∈ c.nodes, P n) → Q c) : ∀ n, P n := by
  have key : ∀ bound, (∀ n : Node, sizeOf n < bound → P n) ∧
      ∀ c : Check, sizeOf c < bound → Q c := by
    intro bound
    induction bound with
    | zero => exact ⟨nofun, nofun⟩
    | succ bound ih =>
      refine ⟨fun n h => node n fun c hc => ih.2 c ?_, fun c h => check c fun n hn => ih.1 n ?_⟩
      · have := sizeOf_lt_of_mem_checks hc
        omega
      · have := Check.sizeOf_lt_of_mem_nodes hn
        omega
  intro n
  exact (key _).1 n (Nat.lt_succ_self _)

/-! ## Equal answers -/

/-- A run of the node on a value may ask for the target on the same value. -/
inductive Node.Mentions (k : Target) : Node → Prop
  | target {n : Node} {c : Check} : c ∈ n.checks → c.target? = some k → Mentions k n
  | nested {n : Node} {c : Check} {m : Node} :
      c ∈ n.checks → m ∈ c.nodesHere → Mentions k m → Mentions k n

/-- The path of a value shows in the reports of a check only. -/
theorem Check.all_actions_path (c : Check) (v : Json) (path path' : Path) {f : Action → Bool}
    (hf : ∀ kind value place, f (.report kind value place) = false) :
    (c.actions v path).all f = (c.actions v path').all f := by
  cases c with
  | closed declared place =>
    cases v with
    | object ms => simp [actions, List.all_map, Function.comp_def, hf]
    | _ => rfl
  | _ => cases v <;> rfl

theorem Check.holds_eq {below below' : Answers} {here here' : Target → Bool} {path path' : Path}
    {v : Json} {c : Check} (target : ∀ k, c.target? = some k → here k = here' k)
    (stay : ∀ n ∈ c.nodesHere, n.holds below here path v = n.holds below' here' path' v)
    (down : ∀ n ∈ c.nodesBelow, ∀ w ∈ v.parts, ∀ s,
      n.holds below (fun k => below k (path ++ [s]) w) (path ++ [s]) w =
        n.holds below' (fun k => below' k (path' ++ [s]) w) (path' ++ [s]) w) :
    c.holds below here path v = c.holds below' here' path' v := by
  cases c using Check.byKind with
  | reference text place =>
    rw [holds_reference, holds_reference]
    exact target _ rfl
  | schemaFormat name =>
    rw [holds_schemaFormat, holds_schemaFormat]
    exact target _ rfl
  | negation n place =>
    rw [holds_negation, holds_negation, stay n (by simp [nodesHere])]
  | anyOf ns place =>
    rw [holds_anyOf, holds_anyOf, Bool.eq_iff_iff, List.any_eq_true, List.any_eq_true]
    exact exists_congr fun n => and_congr_right fun hn => by rw [stay n hn]
  | oneOf ns place =>
    rw [holds_oneOf, holds_oneOf, List.countP_congr fun n hn => by rw [stay n hn]]
  | direct c hc =>
    rw [holds_direct _ _ _ _ hc, holds_direct _ _ _ _ hc,
      c.all_actions_path v path' path fun _ _ _ => rfl, Bool.eq_iff_iff, List.all_eq_true,
      List.all_eq_true]
    refine forall₂_congr fun a ha => ?_
    cases a with
    | report kind value place => rfl
    | absent h s => rfl
    | visit n w seg =>
      rcases mem_of_visit ha with ⟨rfl, rfl, hn⟩ | ⟨⟨s, rfl⟩, hw, hn⟩
      · rw [Action.holds, Action.holds, stay n hn]
      · rw [Action.holds, Action.holds, down n hn w hw s]

/-- **Only the answers to mentioned targets matter** on the value itself. -/
theorem Node.holds_congr {below : Answers} {here here' : Target → Bool} {path : Path} {v : Json}
    {n : Node} (h : ∀ k, n.Mentions k → here k = here' k) :
    n.holds below here path v = n.holds below here' path v := by
  induction n using Node.induction (Q := fun c =>
      (∀ k, c.target? = some k → here k = here' k) →
        (∀ n ∈ c.nodesHere, ∀ k, n.Mentions k → here k = here' k) →
          c.holds below here path v = c.holds below here' path v) with
  | node n ih =>
    have hc : ∀ c ∈ n.checks, c.holds below here path v = c.holds below here' path v := by
      intro c hc
      exact ih c hc (fun k hk => h k (.target hc hk)) fun m hm k hk => h k (.nested hc hm hk)
    rw [Bool.eq_iff_iff, holds_iff, holds_iff]
    exact and_congr_right fun _ => and_congr_right fun _ =>
      forall₂_congr fun c h => by rw [hc c h]
  | check c ih target stay =>
    exact Check.holds_eq target (fun n hn => ih n (List.mem_append_left _ hn) (stay n hn))
      fun n hn w hw s => rfl

/-! ## More answers -/

/-- A check that fails if something holds: negation, and the count of `oneOf`. -/
def Check.negative : Check → Bool
  | negation .. | oneOf .. => true
  | _ => false

/-- No check in the node is negative, at any depth. -/
def Node.Positive (n : Node) : Prop :=
  ∀ m : Node, m.Within n → ∀ c ∈ m.checks, c.negative = false

theorem Node.Positive.checks {n : Node} (h : n.Positive) {c : Check} (hc : c ∈ n.checks) :
    c.negative = false :=
  h n .refl c hc

theorem Node.Positive.of_checks {n : Node}
    (h : ∀ c ∈ n.checks, c.negative = false ∧ ∀ m ∈ c.nodes, m.Positive) : n.Positive := by
  intro m hm
  cases hm with
  | refl => exact fun c hc => (h c hc).1
  | step hc hk hm => exact (h _ hc).2 _ hk m hm

theorem Node.Positive.nested {n : Node} (h : n.Positive) {c : Check} (hc : c ∈ n.checks)
    {m : Node} (hm : m ∈ c.nodes) : m.Positive :=
  fun k hk => h k (.step hc hm hk)

/-- The answers on values smaller than the given one carry over. -/
def Answers.LeBelow (below below' : Answers) (v : Json) : Prop :=
  ∀ k path w, sizeOf w < sizeOf v → below k path w = true → below' k path w = true

theorem Answers.LeBelow.part {below below' : Answers} {v w : Json} (h : below.LeBelow below' v)
    (hw : w ∈ v.parts) : below.LeBelow below' w :=
  fun k path x hx => h k path x (Nat.lt_trans hx (Json.sizeOf_lt_of_mem_parts hw))

theorem Check.holds_imp {below below' : Answers} {here here' : Target → Bool} {path : Path}
    {v : Json} {c : Check} (hc : c.negative = false)
    (target : ∀ k, c.target? = some k → here k = true → here' k = true)
    (stay : ∀ n ∈ c.nodesHere, n.holds below here path v = true →
      n.holds below' here' path v = true)
    (down : ∀ n ∈ c.nodesBelow, ∀ w ∈ v.parts, ∀ s,
      n.holds below (fun k => below k (path ++ [s]) w) (path ++ [s]) w = true →
        n.holds below' (fun k => below' k (path ++ [s]) w) (path ++ [s]) w = true) :
    c.holds below here path v = true → c.holds below' here' path v = true := by
  cases c using Check.byKind with
  | reference text place =>
    rw [holds_reference, holds_reference]
    exact target _ rfl
  | schemaFormat name =>
    rw [holds_schemaFormat, holds_schemaFormat]
    exact target _ rfl
  | negation n place => simp [negative] at hc
  | anyOf ns place =>
    rw [holds_anyOf, holds_anyOf, List.any_eq_true, List.any_eq_true]
    rintro ⟨n, hn, h⟩
    exact ⟨n, hn, stay n hn h⟩
  | oneOf ns place => simp [negative] at hc
  | direct c hd =>
    rw [holds_direct _ _ _ _ hd, holds_direct _ _ _ _ hd, List.all_eq_true, List.all_eq_true]
    intro h a ha
    have hact := h a ha
    cases a with
    | report kind value place => exact hact
    | absent h s => exact hact
    | visit n w seg =>
      rcases mem_of_visit ha with ⟨rfl, rfl, hn⟩ | ⟨⟨s, rfl⟩, hw, hn⟩
      · exact stay n hn hact
      · exact down n hn w hw s hact

/-- **Positive nodes accept more under more answers.** -/
theorem Node.holds_mono {below below' : Answers} {here here' : Target → Bool} {path : Path}
    {v : Json} {n : Node} (hn : n.Positive) (hb : below.LeBelow below' v)
    (hh : ∀ k, here k = true → here' k = true) :
    n.holds below here path v = true → n.holds below' here' path v = true := by
  induction n using Node.induction (Q := fun c => ∀ {here here' : Target → Bool} {path : Path}
      {v : Json}, c.negative = false → (∀ n ∈ c.nodes, n.Positive) → below.LeBelow below' v →
        (∀ k, here k = true → here' k = true) →
          c.holds below here path v = true → c.holds below' here' path v = true)
      generalizing here here' path v with
  | node n ih =>
    rw [holds_iff, holds_iff]
    rintro ⟨ht, hm, hc⟩
    refine ⟨ht, hm, fun c h => ?_⟩
    exact ih c h (hn.checks h) (fun m hm => hn.nested h hm) hb hh (hc c h)
  | check c ih hc hp hb hh h =>
    refine Check.holds_imp hc (fun k _ => hh k) (fun n hn => ?_) (fun n hn w hw s => ?_) h
    · have hn := List.mem_append_left c.nodesBelow hn
      exact ih n hn (hp n hn) hb hh
    · have hn := List.mem_append_right c.nodesHere hn
      exact ih n hn (hp n hn) (hb.part hw) fun k => hb k _ w (Json.sizeOf_lt_of_mem_parts hw)

/-! ## Other paths -/

section Runs

variable (s : Scope)

theorem answers_eq (k : Target) (v : Json) (p : Site) :
    Check.answers s k v p = match s.subroutines.lookup k with
      | some n => decide (k ∈ p.entered) || n.accepts s v (p.enter k)
      | none => true :=
  rfl

/-- **A run accepts the same values at every path.** -/
theorem Node.accepts_path (n : Node) (v : Json) (p : Site) (path : Path) :
    n.accepts s v p = n.accepts s v ⟨path, p.entered⟩ := by
  have key : (∀ (n : Node) v p, ∀ path, n.accepts s v p = n.accepts s v ⟨path, p.entered⟩) ∧
      ∀ (c : Check) v p, ∀ path, c.holds s.below (s.here v p) p.path v =
        c.holds s.below (s.here v ⟨path, p.entered⟩) path v := by
    apply s.run_induction
    · intro n v p ih path
      rw [accepts_eq_holds, accepts_eq_holds, Bool.eq_iff_iff, holds_iff, holds_iff]
      exact and_congr_right fun _ => and_congr_right fun _ =>
        forall₂_congr fun c hc => by rw [ih c hc path]
    · intro c v p stay down target path
      refine Check.holds_eq (fun k hk => ?_) (fun n hn => ?_) fun n hn w hw seg => ?_
      · rw [Scope.here, Scope.here, answers_eq, answers_eq]
        cases hl : s.subroutines.lookup k with
        | none => rfl
        | some n =>
          by_cases he : k ∈ p.entered
          · simp [he]
          · have := target k n hk hl he path
            simp only [he, decide_false, Bool.false_or]
            exact this
      · have := stay n hn path
        rwa [accepts_eq_holds, accepts_eq_holds] at this
      · have := down n hn w hw seg (path ++ [seg])
        rwa [accepts_eq_holds, accepts_eq_holds] at this
  exact key.1 n v p path

end Runs

end JsonSchema
