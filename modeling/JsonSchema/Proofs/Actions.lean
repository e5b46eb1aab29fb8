import JsonSchema.Node.Check
import JsonSchema.Proofs.Parts

/-!
# What a check does next

Most checks of a node go through a list of actions that the value and the check fix beforehand:
report a violation, run a node on the value or on a part of it, or look after a part that is
absent. The other checks ask for a verdict first, of a target or of nested nodes.

* `Check.actions`: the actions of a check on a value;
* `Check.check_direct`: a check without verdicts carries out its actions in order;
* `Check.Comes`, `Check.comes_of_visit`: the nested nodes that a check runs;
* `Check.Sends`, `Check.Comes.sends`: those that it may run, on one value or another;
* `Check.Fills`: those whose defaults it fills in;
* `Scope.level_induction`, `Scope.run_induction`: induction over the runs that a run makes.
-/

namespace JsonSchema

/-- One thing that a check does on a value. -/
inductive Action where
  | report (kind : Violation.Kind) (value : Option Json) (place : Path)
  /-- Look after a part that does not exist, against the heading of its node. -/
  | absent (heading : Heading) (below : Segment)
  /-- Run a node on the value itself, or on a part of it. -/
  | visit (node : Node) (value : Json) (below : Option Segment)

def Site.at (p : Site) : Option Segment → Site
  | none => p
  | some s => p.down s

namespace Check

/-- The checks that ask for no verdict of a target or of nested nodes. -/
def direct : Check → Bool
  | reference .. | schemaFormat .. | negation .. | anyOf .. | oneOf .. => false
  | _ => true

/-- The actions of a check on a value at a path; none for a check that asks for verdicts. -/
def actions (c : Check) (v : Json) (path : Path) : List Action :=
  match c, v with
  | rule r place, v => (r.fault? v).toList.map fun kind => .report kind (some v) place
  | dependencies entries, .object ms => entries.flatMap fun e =>
    bif Members.has ms e.1 then
      match e.2 with
      | .names names place =>
        bif names.all fun name => (v.get? name).isSome then []
        else [.report .dependencies (some v) place]
      | .schema n => [.visit n v none]
    else []
  | closed declared place, .object ms => (ms.filter fun m => !declared.has m.1).map fun m =>
    .report .additionalProperties (some (.string (Path.field (path ++ [.name m.1])))) place
  | additional declared n, .object ms => (ms.filter fun m => !declared.has m.1).map fun m =>
    .visit n m.2 (some (.name m.1))
  | items n, .array xs => xs.zipIdx.map fun x => .visit n x.1 (some (.index x.2))
  | patternProperties entries, .object ms => ms.flatMap fun m =>
    (entries.filter fun e => e.1.accepts m.1).map fun e => .visit e.2 m.2 (some (.name m.1))
  | allOf ns, v => ns.map fun n => .visit n v none
  | tuple ns, .array xs => ns.zipIdx.map fun n =>
    match xs[n.2]? with
    | some x => .visit n.1 x (some (.index n.2))
    | none => .absent n.1.heading (.index n.2)
  | properties entries skipNull, v =>
    match v with
    | .object ms => entries.map fun e =>
      match ms.lookup e.1 with
      | some w => .visit e.2 w (some (.name e.1))
      | none => .absent e.2.heading (.name e.1)
    | .null => bif skipNull then [] else entries.map fun e => .absent e.2.heading (.name e.1)
    | _ => entries.map fun e => .absent e.2.heading (.name e.1)
  | additionalItems limit n, .array xs => (xs.zipIdx.drop limit).map fun x =>
    .visit n x.1 (some (.index x.2))
  | _, _ => []

/-- To show something of every check it is enough to look at those that ask for verdicts, and at
the others together. -/
theorem byKind {P : Check → Prop}
    (reference : ∀ text place, P (.reference text place))
    (schemaFormat : ∀ name, P (.schemaFormat name))
    (negation : ∀ n place, P (.negation n place))
    (anyOf : ∀ ns place, P (.anyOf ns place))
    (oneOf : ∀ ns place, P (.oneOf ns place))
    (direct : ∀ c : Check, c.direct = true → P c) (c : Check) : P c := by
  cases c with
  | reference text place => exact reference text place
  | schemaFormat name => exact schemaFormat name
  | negation n place => exact negation n place
  | anyOf ns place => exact anyOf ns place
  | oneOf ns place => exact oneOf ns place
  | _ => exact direct _ rfl

end Check

def Action.run (s : Scope) (h : Heading) (p : Site) : Action → Tally → Tally
  | report kind value place, t => t.report (violation h p.path kind value place)
  | absent h below, t => h.checkAbsent (p.down below) t
  | visit n w below, t => n.check s w (p.at below) t

/-! ## Carrying out the actions -/

theorem foldl_filter_bif {α β : Type} (q : α → Bool) (f : β → α → β) (xs : List α) (b : β) :
    xs.foldl (fun b x => bif q x then b else f b x) b =
      (xs.filter fun x => !q x).foldl f b := by
  rw [List.foldl_filter]
  congr 1
  funext b x
  cases q x <;> rfl

namespace Check

variable (s : Scope) (h : Heading)

theorem check_dependencies (entries : List (String × Dependency)) (v : Json) (p : Site)
    (t : Tally) :
    (dependencies entries).check s h v p t =
      ((dependencies entries).actions v p.path).foldl (fun t a => a.run s h p t) t := by
  cases v with
  | object ms =>
    rw [check, actions, List.foldl_flatMap]
    congr 1
    funext t e
    obtain ⟨name, d⟩ := e
    cases Members.has ms name with
    | false => rfl
    | true =>
      cases d with
      | names names place =>
        rw [Dependency.check]
        simp only [cond_true, Heading.demand]
        cases names.all fun name => ((Json.object ms).get? name).isSome <;> rfl
      | schema n => simp only [Dependency.check, cond_true, List.foldl_cons, List.foldl_nil,
          Action.run, Site.at]
  | _ => simp [check, actions]

theorem check_properties_of_not_object (entries : List (String × Node)) (skipNull : Bool)
    (v : Json) (hv : ∀ ms, v ≠ .object ms) (p : Site) (t : Tally) :
    (properties entries skipNull).check s h v p t =
      ((properties entries skipNull).actions v p.path).foldl (fun t a => a.run s h p t) t := by
  cases v with
  | object ms => exact absurd rfl (hv ms)
  | null => cases skipNull <;> simp [check, actions, List.foldl_map, Action.run]
  | _ => simp [check, actions, List.foldl_map, Action.run]

/-- **A check without verdicts carries out its actions in order.** -/
theorem check_direct {c : Check} (hc : c.direct = true) (v : Json) (p : Site) (t : Tally) :
    c.check s h v p t = (c.actions v p.path).foldl (fun t a => a.run s h p t) t := by
  cases c with
  | reference | schemaFormat | negation | anyOf | oneOf => simp [direct] at hc
  | rule r place =>
    rw [check, actions, Heading.checkRule]
    cases r.fault? v <;> rfl
  | dependencies entries => exact check_dependencies s h entries v p t
  | closed declared place =>
    cases v with
    | object ms => rw [check, actions, List.foldl_map]; rfl
    | _ => simp [check, actions]
  | additional declared n =>
    cases v with
    | object ms => rw [check, actions, List.foldl_map, foldl_filter_bif]; rfl
    | _ => simp [check, actions]
  | items n =>
    cases v with
    | array xs => rw [check_items, actions, List.foldl_map]; rfl
    | _ => simp [check, actions]
  | patternProperties entries =>
    cases v with
    | object ms =>
      rw [check, actions, List.foldl_flatMap]
      congr 1
      funext t m
      rw [List.foldl_map, List.foldl_filter]
      congr 1
      funext t e
      cases e.1.accepts m.1 <;> rfl
    | _ => simp [check, actions]
  | allOf ns => rw [check, actions, List.foldl_map]; rfl
  | tuple ns =>
    cases v with
    | array xs =>
      rw [check_tuple, actions, List.foldl_map]
      congr 1
      funext t n
      cases xs[n.2]? <;> rfl
    | _ => simp [check, actions]
  | properties entries skipNull =>
    cases v with
    | object ms =>
      rw [check_properties, actions, List.foldl_map]
      congr 1
      funext t e
      cases ms.lookup e.1 <;> rfl
    | _ => exact check_properties_of_not_object s h entries skipNull _ (by simp) p t
  | additionalItems limit n =>
    cases v with
    | array xs => rw [check_additionalItems, actions, List.foldl_map]; rfl
    | _ => simp [check, actions]

end Check

/-! ## Where the visits go -/

/-- A check comes to a nested node with the value itself or with a part of it. The nodes of `not`,
`anyOf` and `oneOf` are asked for verdicts only. -/
inductive Check.Comes : Check → Json → Node → Json → Option Segment → Prop
  | dependency {entries : List (String × Dependency)} {ms : Members} {name : String} {n : Node} :
      (name, .schema n) ∈ entries → Members.has ms name = true →
      Comes (dependencies entries) (.object ms) n (.object ms) none
  | additional {declared : Declared} {n : Node} {ms : Members} {e : String × Json} :
      e ∈ ms → declared.has e.1 = false →
      Comes (.additional declared n) (.object ms) n e.2 (some (.name e.1))
  | item {n : Node} {xs : List Json} {i : Nat} {x : Json} : xs[i]? = some x →
      Comes (items n) (.array xs) n x (some (.index i))
  | pattern {entries : List (Pattern × Node)} {f : Pattern × Node} {ms : Members}
      {e : String × Json} : f ∈ entries → e ∈ ms → f.1.accepts e.1 = true →
      Comes (patternProperties entries) (.object ms) f.2 e.2 (some (.name e.1))
  | member {ns : List Node} {n : Node} {v : Json} : n ∈ ns → Comes (allOf ns) v n v none
  | tupleItem {ns : List Node} {n : Node} {xs : List Json} {i : Nat} {x : Json} :
      (n, i) ∈ ns.zipIdx → xs[i]? = some x → Comes (tuple ns) (.array xs) n x (some (.index i))
  | property {entries : List (String × Node)} {skipNull : Bool} {e : String × Node} {ms : Members}
      {w : Json} : e ∈ entries → ms.lookup e.1 = some w →
      Comes (properties entries skipNull) (.object ms) e.2 w (some (.name e.1))
  | itemPast {limit : Nat} {n : Node} {xs : List Json} {i : Nat} {x : Json} : limit ≤ i →
      xs[i]? = some x → Comes (additionalItems limit n) (.array xs) n x (some (.index i))

/-- A check may come to a nested node with the value itself or with a part of it, on one value or
another. -/
inductive Check.Sends : Check → Node → Option Segment → Prop
  | dependency {entries : List (String × Dependency)} {name : String} {n : Node} :
      (name, .schema n) ∈ entries → Sends (dependencies entries) n none
  | additional {declared : Declared} {n : Node} {name : String} : declared.has name = false →
      Sends (.additional declared n) n (some (.name name))
  | item {n : Node} {i : Nat} : Sends (items n) n (some (.index i))
  | pattern {entries : List (Pattern × Node)} {f : Pattern × Node} {name : String} :
      f ∈ entries → f.1.accepts name = true →
      Sends (patternProperties entries) f.2 (some (.name name))
  | member {ns : List Node} {n : Node} : n ∈ ns → Sends (allOf ns) n none
  | tupleItem {ns : List Node} {n : Node} {i : Nat} : (n, i) ∈ ns.zipIdx →
      Sends (tuple ns) n (some (.index i))
  | property {entries : List (String × Node)} {skipNull : Bool} {e : String × Node} :
      e ∈ entries → Sends (properties entries skipNull) e.2 (some (.name e.1))
  | itemPast {limit : Nat} {n : Node} {i : Nat} : limit ≤ i →
      Sends (additionalItems limit n) n (some (.index i))

/-- A check fills in the default of a nested node where a part is absent. -/
inductive Check.Fills : Check → Node → Segment → Prop
  | item {ns : List Node} {n : Node} {i : Nat} : (n, i) ∈ ns.zipIdx → Fills (tuple ns) n (.index i)
  | member {entries : List (String × Node)} {skipNull : Bool} {e : String × Node} :
      e ∈ entries → Fills (properties entries skipNull) e.2 (.name e.1)

theorem Check.Fills.sends {c : Check} {n : Node} {seg : Segment} (h : c.Fills n seg) :
    c.Sends n (some seg) := by
  cases h with
  | item hn => exact .tupleItem hn
  | member he => exact .property he

/-- The items past a position are those of the later positions. -/
theorem zipIdx_drop_eq_filter {α : Type} (limit : Nat) (xs : List α) :
    xs.zipIdx.drop limit = xs.zipIdx.filter fun x => decide (limit ≤ x.2) := by
  have key : ∀ (xs : List α) (i limit : Nat), (xs.zipIdx i).drop limit =
      (xs.zipIdx i).filter fun x => decide (i + limit ≤ x.2) := by
    intro xs
    induction xs with
    | nil => intro i limit; simp
    | cons x xs ih =>
      intro i limit
      cases limit with
      | zero =>
        refine (List.filter_eq_self.2 fun y hy => ?_).symm
        simpa using List.le_snd_of_mem_zipIdx hy
      | succ limit =>
        have hnext := ih (i + 1) limit
        rw [Nat.add_right_comm, Nat.add_assoc] at hnext
        rw [List.zipIdx_cons, List.drop_succ_cons, hnext, List.filter_cons_of_neg (by simp)]
  simpa using key xs 0 limit

section

variable {c : Check} {v w : Json} {path : Path} {n : Node} {below : Option Segment}

theorem Check.comes_of_visit (ha : .visit n w below ∈ c.actions v path) :
    c.Comes v n w below := by
  cases c with
  | dependencies entries =>
    cases v with
    | object ms =>
      simp only [actions, List.mem_flatMap] at ha
      obtain ⟨⟨name, d⟩, he, ha⟩ := ha
      cases hm : Members.has ms name with
      | false => simp [hm] at ha
      | true =>
        cases d with
        | names names place =>
          simp only [hm, Bool.cond_eq_ite] at ha
          split at ha <;> simp at ha
        | schema m =>
          simp only [hm, cond_true, List.mem_singleton, Action.visit.injEq] at ha
          obtain ⟨rfl, rfl, rfl⟩ := ha
          exact .dependency he hm
    | _ => simp [actions] at ha
  | additional declared m =>
    cases v with
    | object ms =>
      simp only [actions, List.mem_map, List.mem_filter, Action.visit.injEq] at ha
      obtain ⟨e, ⟨he, hdeclared⟩, rfl, rfl, rfl⟩ := ha
      exact .additional he (by simpa using hdeclared)
    | _ => simp [actions] at ha
  | items m =>
    cases v with
    | array xs =>
      simp only [actions, List.mem_map, Action.visit.injEq] at ha
      obtain ⟨x, hx, rfl, rfl, rfl⟩ := ha
      exact .item (List.mem_zipIdx_iff_getElem?.1 hx)
    | _ => simp [actions] at ha
  | patternProperties entries =>
    cases v with
    | object ms =>
      simp only [actions, List.mem_flatMap, List.mem_map, List.mem_filter,
        Action.visit.injEq] at ha
      obtain ⟨e, he, f, ⟨hf, haccepts⟩, rfl, rfl, rfl⟩ := ha
      exact .pattern hf he haccepts
    | _ => simp [actions] at ha
  | allOf ns =>
    simp only [actions, List.mem_map, Action.visit.injEq] at ha
    obtain ⟨m, hm, rfl, rfl, rfl⟩ := ha
    exact .member hm
  | tuple ns =>
    cases v with
    | array xs =>
      simp only [actions, List.mem_map] at ha
      obtain ⟨⟨m, i⟩, hm, ha⟩ := ha
      cases hx : xs[i]? with
      | none => simp [hx] at ha
      | some x =>
        simp only [hx, Action.visit.injEq] at ha
        obtain ⟨rfl, rfl, rfl⟩ := ha
        exact .tupleItem hm hx
    | _ => simp [actions] at ha
  | properties entries skipNull =>
    cases v with
    | object ms =>
      simp only [actions, List.mem_map] at ha
      obtain ⟨e, he, ha⟩ := ha
      cases hw : ms.lookup e.1 with
      | none => simp [hw] at ha
      | some x =>
        simp only [hw, Action.visit.injEq] at ha
        obtain ⟨rfl, rfl, rfl⟩ := ha
        exact .property he hw
    | null => cases skipNull <;> simp [actions] at ha
    | _ => simp [actions] at ha
  | additionalItems limit m =>
    cases v with
    | array xs =>
      simp only [actions, List.mem_map, Action.visit.injEq, zipIdx_drop_eq_filter,
        List.mem_filter] at ha
      obtain ⟨x, ⟨hx, hlimit⟩, rfl, rfl, rfl⟩ := ha
      exact .itemPast (by simpa using hlimit) (List.mem_zipIdx_iff_getElem?.1 hx)
    | _ => simp [actions] at ha
  | closed declared place => cases v <;> simp [actions] at ha
  | _ => simp [actions] at ha

theorem Check.Comes.mem (h : c.Comes v n w below) :
    (below = none ∧ w = v ∧ n ∈ c.nodesHere) ∨
      (∃ s, below = some s) ∧ w ∈ v.parts ∧ n ∈ c.nodesBelow := by
  cases h with
  | dependency he _ => exact .inl ⟨rfl, rfl, List.mem_filterMap.mpr ⟨_, he, rfl⟩⟩
  | additional he _ => exact .inr ⟨⟨_, rfl⟩, List.mem_map_of_mem he, by simp [nodesBelow]⟩
  | item hx => exact .inr ⟨⟨_, rfl⟩, List.mem_of_getElem? hx, by simp [nodesBelow]⟩
  | pattern hf he _ => exact .inr ⟨⟨_, rfl⟩, List.mem_map_of_mem he, List.mem_map_of_mem hf⟩
  | member hn => exact .inl ⟨rfl, rfl, hn⟩
  | tupleItem hn hx =>
    exact .inr ⟨⟨_, rfl⟩, List.mem_of_getElem? hx, List.fst_mem_of_mem_zipIdx hn⟩
  | property he hw =>
    exact .inr ⟨⟨_, rfl⟩, List.mem_map_of_mem (mem_of_lookup hw), List.mem_map_of_mem he⟩
  | itemPast _ hx => exact .inr ⟨⟨_, rfl⟩, List.mem_of_getElem? hx, by simp [nodesBelow]⟩

theorem Check.mem_of_visit (ha : .visit n w below ∈ c.actions v path) :
    (below = none ∧ w = v ∧ n ∈ c.nodesHere) ∨
      (∃ s, below = some s) ∧ w ∈ v.parts ∧ n ∈ c.nodesBelow :=
  (comes_of_visit ha).mem

theorem Check.Comes.sends (h : c.Comes v n w below) : c.Sends n below := by
  cases h with
  | dependency he _ => exact .dependency he
  | additional _ hdeclared => exact .additional hdeclared
  | item _ => exact .item
  | pattern hf _ ha => exact .pattern hf ha
  | member hn => exact .member hn
  | tupleItem hn _ => exact .tupleItem hn
  | property he _ => exact .property he
  | itemPast hlimit _ => exact .itemPast hlimit

theorem Check.Sends.mem_here (h : c.Sends n none) : n ∈ c.nodesHere := by
  cases h with
  | dependency he => exact List.mem_filterMap.mpr ⟨_, he, rfl⟩
  | member hn => exact hn

theorem Check.Sends.mem_below {seg : Segment} (h : c.Sends n (some seg)) : n ∈ c.nodesBelow := by
  cases h with
  | additional _ | item | itemPast _ => simp [nodesBelow]
  | pattern hf _ => exact List.mem_map_of_mem hf
  | tupleItem hn => exact List.fst_mem_of_mem_zipIdx hn
  | property he => exact List.mem_map_of_mem he

theorem Check.Comes.visit (h : c.Comes v n w below) : .visit n w below ∈ c.actions v path := by
  cases h with
  | dependency he hm => exact List.mem_flatMap.2 ⟨_, he, by simp [hm]⟩
  | @additional _ _ _ e he hdeclared =>
    exact List.mem_map.2 ⟨e, List.mem_filter.2 ⟨he, by simp [hdeclared]⟩, rfl⟩
  | @item _ _ i _ hx =>
    exact List.mem_map.2 ⟨(w, i), List.mem_zipIdx_iff_getElem?.2 hx, rfl⟩
  | @pattern _ f _ e hf he ha =>
    exact List.mem_flatMap.2 ⟨e, he, List.mem_map.2 ⟨f, List.mem_filter.2 ⟨hf, ha⟩, rfl⟩⟩
  | member hn => exact List.mem_map.2 ⟨n, hn, rfl⟩
  | tupleItem hn hx => exact List.mem_map.2 ⟨_, hn, by simp [hx]⟩
  | @property _ _ e _ _ he hw => exact List.mem_map.2 ⟨e, he, by simp [hw]⟩
  | @itemPast _ _ _ i _ hlimit hx =>
    refine List.mem_map.2 ⟨(w, i), ?_, rfl⟩
    rw [zipIdx_drop_eq_filter]
    exact List.mem_filter.2 ⟨List.mem_zipIdx_iff_getElem?.2 hx, by simpa using hlimit⟩

end

theorem Check.sizeOf_lt_of_visit {c : Check} {v : Json} {path : Path} {n : Node} {w : Json}
    {below : Option Segment} (ha : .visit n w below ∈ c.actions v path) :
    sizeOf n < sizeOf c := by
  apply Check.sizeOf_lt_of_mem_nodes
  rcases mem_of_visit ha with ⟨-, -, hn⟩ | ⟨-, -, hn⟩
  · exact List.mem_append_left _ hn
  · exact List.mem_append_right _ hn

/-! ## Induction over runs -/

open Scope (weight_part weight_down weight_enter)

/-- Induction over the steps of a run, at levels that go down with the parts of the value. -/
theorem Scope.level_induction (s : Scope) {P : Node → Nat → Site → Prop}
    {Q : Check → Nat → Site → Prop}
    (node : ∀ n level p, (∀ c ∈ n.checks, Q c level p) → P n level p)
    (check : ∀ c level p, (∀ n ∈ c.nodesHere, P n level p) →
      (∀ n ∈ c.nodesBelow, ∀ level' < level, ∀ below, P n level' (p.down below)) →
      (∀ k n, c.target? = some k → s.subroutines.lookup k = some n → k ∉ p.entered →
        P n level (p.enter k)) → Q c level p) :
    (∀ n level p, P n level p) ∧ ∀ c level p, Q c level p := by
  have key : ∀ bound, (∀ n level p, s.weight level p (sizeOf n) < bound → P n level p) ∧
      ∀ c level p, s.weight level p (sizeOf c) < bound → Q c level p := by
    intro bound
    induction bound with
    | zero => exact ⟨nofun, nofun⟩
    | succ bound ih =>
      refine ⟨fun n level p h => ?_, fun c level p h => ?_⟩
      · refine node n level p fun c hc => ih.2 c level p ?_
        exact Nat.lt_of_lt_of_le (weight_part (Node.sizeOf_lt_of_mem_checks hc))
          (Nat.le_of_lt_succ h)
      · refine check c level p (fun n hn => ih.1 n level p ?_)
          (fun n hn level' hl below => ih.1 n level' _ ?_) fun k n _ hn hk => ih.1 n level _ ?_
        · exact Nat.lt_of_lt_of_le
            (weight_part (Check.sizeOf_lt_of_mem_nodes (List.mem_append_left _ hn)))
            (Nat.le_of_lt_succ h)
        · exact Nat.lt_of_lt_of_le (weight_down hl
            (Check.sizeOf_lt_of_mem_nodes (List.mem_append_right _ hn))) (Nat.le_of_lt_succ h)
        · exact Nat.lt_of_lt_of_le (weight_enter hn hk) (Nat.le_of_lt_succ h)
  exact ⟨fun n level p => (key _).1 n level p (Nat.lt_succ_self _),
    fun c level p => (key _).2 c level p (Nat.lt_succ_self _)⟩

/-- **Induction over runs.** What holds of every run as soon as it holds of the runs that it makes
holds of all runs. -/
theorem Scope.run_induction (s : Scope) {P : Node → Json → Site → Prop}
    {Q : Check → Json → Site → Prop}
    (node : ∀ n v p, (∀ c ∈ n.checks, Q c v p) → P n v p)
    (check : ∀ c v p, (∀ n ∈ c.nodesHere, P n v p) →
      (∀ n ∈ c.nodesBelow, ∀ w ∈ v.parts, ∀ below, P n w (p.down below)) →
      (∀ k n, c.target? = some k → s.subroutines.lookup k = some n → k ∉ p.entered →
        P n v (p.enter k)) → Q c v p) :
    (∀ n v p, P n v p) ∧ ∀ c v p, Q c v p := by
  have key := s.level_induction (P := fun n level p => ∀ v, sizeOf v = level → P n v p)
    (Q := fun c level p => ∀ v, sizeOf v = level → Q c v p)
    (fun n level p ih v hv => node n v p fun c hc => ih c hc v hv)
    (by
      rintro c level p here below target v rfl
      exact check c v p (fun n hn => here n hn v rfl)
        (fun n hn w hw seg => below n hn _ (Json.sizeOf_lt_of_mem_parts hw) seg w rfl)
        fun k n hk hn he => target k n hk hn he v rfl)
  exact ⟨fun n v p => key.1 n _ p v rfl, fun c v p => key.2 c _ p v rfl⟩

end JsonSchema
