import Mathlib.Data.Fin.SuccPred
import JsonSchema.Proofs.Pairing
import JsonSchema.Proofs.Reading

/-!
# What compiled checks decide

A node means a schema if it accepts the same values, whatever the targets answer. The checks that
hold such nodes then decide what their keywords say.

* `Node.Means`: a node accepts what a schema accepts;
* `Decides`: checks hold of the values with a property;
* `decides_negation`, `decides_oneOf`, `decides_properties` and so on: one for each kind of check.
-/

namespace JsonSchema

/-! ## Lists that correspond -/

section Lists

variable {α β : Type} {R : α → β → Prop} {xs : List α} {ys : List β} {P : α → Prop} {Q : β → Prop}

theorem forall_mem_iff_of_forall₂ (h : List.Forall₂ R xs ys)
    (hiff : ∀ x y, R x y → (Q y ↔ P x)) : (∀ y ∈ ys, Q y) ↔ ∀ x ∈ xs, P x := by
  induction h with
  | nil => simp
  | cons hxy _ ih => simp only [List.forall_mem_cons, hiff _ _ hxy, ih]

theorem exists_mem_iff_of_forall₂ (h : List.Forall₂ R xs ys)
    (hiff : ∀ x y, R x y → (Q y ↔ P x)) : (∃ y ∈ ys, Q y) ↔ ∃ x ∈ xs, P x := by
  induction h with
  | nil => simp
  | cons hxy _ ih => simp only [List.exists_mem_cons_iff, hiff _ _ hxy, ih]

theorem forall_mem_zipIdx_iff {S : α → Nat → Prop} :
    (∀ x ∈ xs.zipIdx, S x.1 x.2) ↔ ∀ i : Fin xs.length, S xs[i] i := by
  constructor
  · intro h i
    exact h (xs[i], i) (List.mem_zipIdx_iff_getElem?.2 (List.getElem?_eq_getElem i.2))
  · rintro h ⟨x, i⟩ hx
    obtain ⟨hi, he⟩ := List.getElem?_eq_some_iff.1 (List.mem_zipIdx_iff_getElem?.1 hx)
    have := h ⟨i, hi⟩
    rwa [Fin.getElem_fin, he] at this

/-- Exactly one position of a list has a property. -/
theorem countP_eq_one_iff (p : α → Bool) (xs : List α) :
    xs.countP p = 1 ↔
      ∃ i : Fin xs.length, p xs[i] = true ∧ ∀ j : Fin xs.length, p xs[j] = true → j = i := by
  induction xs with
  | nil => simp
  | cons x xs ih =>
    have hzero : xs.countP p = 0 ↔ ∀ j : Fin xs.length, p xs[j] = false := by
      simp [List.countP_eq_zero, List.mem_iff_get, List.get_eq_getElem]
    rw [List.countP_cons]
    show _ ↔ ∃ i : Fin (xs.length + 1), p (x :: xs)[i] = true ∧
      ∀ j : Fin (xs.length + 1), p (x :: xs)[j] = true → j = i
    cases hx : p x with
    | true =>
      simp [Fin.exists_fin_succ, Fin.forall_fin_succ, hx, hzero, Fin.succ_ne_zero]
      intro j _ h
      exact absurd h.symm (Fin.succ_ne_zero j)
    | false => simp [Fin.exists_fin_succ, Fin.forall_fin_succ, hx, ih]

end Lists

/-! ## Nodes and checks -/

/-- A node accepts what a schema accepts, present or absent. -/
structure Node.Means (o : Options) (schema : Json) (n : Node) : Prop where
  holds_iff (below : Answers) (here : Target → Bool) (path : Path) (v : Json) :
    n.holds below here path v = true ↔ Accepts .rounded o schema v
  allowsAbsent_iff : n.heading.allowsAbsent = true ↔ AllowsAbsent schema

/-- Among the values that the type of a schema object admits, the checks hold of those with the
property. -/
def Decides (ms : Members) (cs : List Check) (P : Json → Prop) : Prop :=
  ∀ below here path v, AdmitsType ms v →
    ((∀ c ∈ cs, c.holds below here path v = true) ↔ P v)

section Decides

variable {o : Options} {ms : Members} {cs ds : List Check} {P Q : Json → Prop}

theorem decides_nil (h : ∀ v, AdmitsType ms v → P v) : Decides ms [] P := by
  intro below here path v hv
  simp [h v hv]

theorem Decides.congr (hc : Decides ms cs P) (h : ∀ v, P v ↔ Q v) : Decides ms cs Q :=
  fun below here path v hv => (hc below here path v hv).trans (h v)

theorem Decides.append (hc : Decides ms cs P) (hd : Decides ms ds Q) :
    Decides ms (cs ++ ds) fun v => P v ∧ Q v := by
  intro below here path v hv
  show _ ↔ P v ∧ Q v
  rw [← hc below here path v hv, ← hd below here path v hv]
  simp only [List.mem_append, or_imp, forall_and]

/-- Lists of checks, each of which decides the property of an index. -/
theorem decides_flatten {ι : Type} {R : ι → Json → Prop} {is : List ι} {css : List (List Check)}
    (h : List.Forall₂ (fun i cs => Decides ms cs (R i)) is css) :
    Decides ms css.flatten fun v => ∀ i ∈ is, R i v := by
  intro below here path v hv
  show _ ↔ ∀ i ∈ is, R i v
  rw [← forall_mem_iff_of_forall₂ h fun i cs hcs => hcs below here path v hv]
  simp only [List.mem_flatten, forall_exists_index, and_imp]
  exact ⟨fun h cs hcs c hc => h c cs hcs hc, fun h c cs hcs hc => h cs hcs c hc⟩

/-- A check that asks for verdicts. -/
theorem decides_singleton {c : Check}
    (h : ∀ below here path v, AdmitsType ms v → (c.holds below here path v = true ↔ P v)) :
    Decides ms [c] P := by
  intro below here path v hv
  simpa using h below here path v hv

/-- A check without verdicts, by its actions. -/
theorem decides_direct {c : Check} (hc : c.direct = true)
    (h : ∀ below here path v, AdmitsType ms v →
      ((∀ a ∈ c.actions v path, a.holds below here path = true) ↔ P v)) :
    Decides ms [c] P := by
  refine decides_singleton fun below here path v hv => ?_
  rw [Check.holds_direct _ _ _ _ hc, List.all_eq_true]
  exact h below here path v hv

theorem Node.Means.visit {n : Node} {schema : Json} (hn : n.Means o schema) (below : Answers)
    (here : Target → Bool) (path : Path) (v : Json) (seg : Option Segment) :
    (Action.visit n v seg).holds below here path = true ↔ Accepts .rounded o schema v := by
  cases seg with
  | none => exact hn.holds_iff below here path v
  | some s => exact hn.holds_iff below _ _ v

/-! ## One lemma for each kind of check -/

theorem decides_rule {r : Option Rule} {place : Path}
    (h : ∀ v, (∀ rule, r = some rule → rule.fault? v = none) ↔ P v) :
    Decides ms (r.toList.map fun r => .rule r place) P := by
  cases r with
  | none => exact decides_nil fun v _ => (h v).1 (by simp)
  | some r =>
    refine decides_direct rfl fun below here path v _ => ?_
    rw [← h v]
    cases hf : r.fault? v <;> simp [Check.actions, Action.holds, hf]

theorem decides_negation {n : Node} {x : Json} {place : Path} (hn : n.Means o x) :
    Decides ms [.negation n place] fun v => ¬Accepts .rounded o x v := by
  refine decides_singleton fun below here path v _ => ?_
  rw [Check.holds_negation, ← hn.holds_iff below here path v]
  simp

theorem decides_anyOf {ns : List Node} {ss : List Json} {place : Path}
    (h : List.Forall₂ (Node.Means o) ss ns) :
    Decides ms [.anyOf ns place] fun v => ∃ s, ∃ _ : s ∈ ss, Accepts .rounded o s v := by
  refine decides_singleton fun below here path v _ => ?_
  rw [Check.holds_anyOf, List.any_eq_true,
    exists_mem_iff_of_forall₂ h fun s n hn => hn.holds_iff below here path v]
  simp only [exists_prop]

theorem decides_oneOf {ns : List Node} {ss : List Json} {place : Path}
    (h : List.Forall₂ (Node.Means o) ss ns) :
    Decides ms [.oneOf ns place] fun v => ∃ i : Fin ss.length,
      Accepts .rounded o (ss.get i) v ∧
        ∀ j : Fin ss.length, Accepts .rounded o (ss.get j) v → j = i := by
  classical
  refine decides_singleton fun below here path v _ => ?_
  have hcount : (ns.countP fun n => n.holds below here path v) =
      ss.countP fun s => decide (Accepts .rounded o s v) := by
    refine (countP_eq_of_forall₂ h fun s _ n hn => ?_).symm
    rw [Bool.eq_iff_iff, hn.holds_iff, decide_eq_true_iff]
  rw [Check.holds_oneOf, beq_iff_eq, hcount, countP_eq_one_iff]
  simp only [decide_eq_true_iff]
  rfl

theorem decides_allOf {ns : List Node} {ss : List Json} (h : List.Forall₂ (Node.Means o) ss ns) :
    Decides ms [.allOf ns] fun v => ∀ s ∈ ss, Accepts .rounded o s v := by
  refine decides_direct rfl fun below here path v _ => ?_
  simp only [Check.actions, List.forall_mem_map]
  exact forall_mem_iff_of_forall₂ h fun s n hn => hn.visit below here path v none

theorem decides_items {n : Node} {x : Json} (hn : n.Means o x) :
    Decides ms [.items n] fun v => ∀ xs, v = .array xs → ∀ y ∈ xs, Accepts .rounded o x y := by
  refine decides_direct rfl fun below here path v _ => ?_
  cases v with
  | array xs =>
    simp only [Check.actions, List.forall_mem_map, hn.visit, Json.array.injEq, forall_eq']
    conv_rhs => rw [← List.zipIdx_map_fst 0 xs]
    rw [List.forall_mem_map]
  | _ => simp [Check.actions]

theorem decides_additionalItems {limit : Nat} {n : Node} {x : Json} (hn : n.Means o x) :
    Decides ms [.additionalItems limit n] fun v => ∀ xs, v = .array xs →
      ∀ y ∈ xs.drop limit, Accepts .rounded o x y := by
  refine decides_direct rfl fun below here path v _ => ?_
  cases v with
  | array xs =>
    simp only [Check.actions, List.forall_mem_map, hn.visit, Json.array.injEq, forall_eq']
    conv_rhs => rw [← List.zipIdx_map_fst 0 xs]
    rw [← List.map_drop, List.forall_mem_map]
  | _ => simp [Check.actions]

theorem decides_closed {declared : Declared} {place : Path}
    (hd : tuple? ms = none → ∀ name, declared.has name = true ↔ IsDeclared ms name) :
    Decides ms [.closed declared place] fun v => ∀ members, v = .object members →
      ∀ m ∈ members, IsDeclared ms m.1 := by
  refine decides_direct rfl fun below here path v hv => ?_
  cases v with
  | object members =>
    have hname := hd (tuple?_eq_none_of_object hv)
    simp only [Check.actions, List.forall_mem_map, List.mem_filter, Action.holds, Json.object.injEq,
      forall_eq', Bool.not_eq_true', Bool.false_eq_true, imp_false, not_and, Bool.not_eq_false]
    exact forall₂_congr fun m _ => hname m.1
  | _ => simp [Check.actions]

theorem decides_additional {declared : Declared} {n : Node} {x : Json} (hn : n.Means o x)
    (hd : tuple? ms = none → ∀ name, declared.has name = true ↔ IsDeclared ms name) :
    Decides ms [.additional declared n] fun v => ∀ members, v = .object members →
      ∀ m ∈ members, ¬IsDeclared ms m.1 → Accepts .rounded o x m.2 := by
  refine decides_direct rfl fun below here path v hv => ?_
  cases v with
  | object members =>
    have hname := hd (tuple?_eq_none_of_object hv)
    simp only [Check.actions, List.forall_mem_map, List.mem_filter, hn.visit, Json.object.injEq,
      forall_eq', Bool.not_eq_true', and_imp]
    refine forall₂_congr fun m _ => ?_
    rw [← hname m.1, Bool.not_eq_true]
  | _ => simp [Check.actions]

theorem decides_patternProperties {entries : Members} {ns : List (Pattern × Node)}
    (h : List.Forall₂ (fun e n => Pattern.parse? e.1 = some n.1 ∧ n.2.Means o e.2) entries ns) :
    Decides ms [.patternProperties ns] fun v => ∀ members, v = .object members →
      ∀ e ∈ entries, ∀ p, Pattern.parse? e.1 = some p → ∀ m ∈ members,
        p.accepts m.1 = true → Accepts .rounded o e.2 m.2 := by
  refine decides_direct rfl fun below here path v _ => ?_
  cases v with
  | object members =>
    have hswap : (∀ a ∈ (Check.patternProperties ns).actions (.object members) path,
        a.holds below here path = true) ↔ ∀ n ∈ ns, ∀ m ∈ members, n.1.accepts m.1 = true →
          (Action.visit n.2 m.2 (some (.name m.1))).holds below here path = true := by
      simp only [Check.actions, List.mem_flatMap, forall_exists_index, and_imp,
        List.mem_map, List.mem_filter]
      constructor
      · intro h n hn m hm hacc
        exact h _ m hm n hn hacc rfl
      · rintro h _ m hm n hn hacc rfl
        exact h n hn m hm hacc
    rw [hswap, forall_mem_iff_of_forall₂ h (P := fun e => ∀ p, Pattern.parse? e.1 = some p →
      ∀ m ∈ members, p.accepts m.1 = true → Accepts .rounded o e.2 m.2)]
    · simp only [Json.object.injEq, forall_eq']
    · rintro e n ⟨hp, hn⟩
      simp only [hp, Option.some.injEq, forall_eq', hn.visit]
  | _ => simp [Check.actions]

/-- A dependency that was compiled demands what its value says. -/
inductive Dependency.Means (o : Options) : Json → Dependency → Prop
  | name (other : String) (place : Path) : Means o (.string other) (.names [other] place)
  | names (names : List String) (place : Path) :
    Means o (.array (names.map .string)) (.names names place)
  | schema {x : Json} {n : Node} (hs : ∀ s, x ≠ .string s) (ha : ∀ xs, x ≠ .array xs)
    (hn : n.Means o x) : Means o x (.schema n)

theorem decides_dependencies {entries : Members} {ds : List (String × Dependency)}
    (h : List.Forall₂ (fun e d => d.1 = e.1 ∧ d.2.Means o e.2) entries ds) :
    Decides ms [.dependencies ds] fun v => ∀ e ∈ entries,
      (v.get? e.1).isSome → Demands e.2 v (Accepts .rounded o e.2 v) := by
  refine decides_direct rfl fun below here path v _ => ?_
  cases v with
  | object members =>
    simp only [Check.actions, List.forall_mem_flatMap]
    refine forall_mem_iff_of_forall₂ h ?_
    rintro ⟨key, x⟩ ⟨key', d⟩ ⟨hkey, hd⟩
    obtain rfl : key' = key := hkey
    replace hd : d.Means o x := hd
    show (∀ a ∈ bif (members.lookup key').isSome then _ else _, _) ↔
      ((members.lookup key').isSome = true → _)
    cases (members.lookup key').isSome with
    | false => simp
    | true =>
      cases hd with
      | name other place =>
        cases ho : (Json.object members).get? other <;>
          simp [Demands, HasAll, Action.holds, ho]
      | names names place =>
        have hall : (names.all fun name => ((Json.object members).get? name).isSome) = true ↔
            HasAll (.object members) (names.map .string) := by
          rw [hasAll_names, List.all_eq_true]
        cases hn : names.all fun name => ((Json.object members).get? name).isSome with
        | true => simpa [hn, Demands] using hall
        | false => simpa [hn, Demands, Action.holds] using hall
      | schema hs ha hn =>
        have hx : Demands x (.object members) (Accepts .rounded o x (.object members)) =
            Accepts .rounded o x (.object members) := by
          rw [Demands]
          · exact fun s => hs s
          · exact fun xs => ha xs
        simp [hx, hn.visit]
  | _ => simp [Check.actions, Json.get?]

/-- A node for a part of a value, which the value may lack. -/
theorem Node.Means.part {n : Node} {schema : Json} (hn : n.Means o schema) (below : Answers)
    (here : Target → Bool) (path : Path) (v : Option Json) (seg : Segment) :
    Action.holds below here path (match v with
      | some w => .visit n w (some seg)
      | none => .absent n.heading seg) = true ↔
      PartHolds v (fun w => Accepts .rounded o schema w) (AllowsAbsent schema) := by
  cases v with
  | some w => exact hn.visit below here path w _
  | none => exact hn.allowsAbsent_iff

theorem decides_tuple {ns : List Node} {ss : List Json} (h : List.Forall₂ (Node.Means o) ss ns) :
    Decides ms [.tuple ns] fun v => ∀ xs, v = .array xs → ∀ i : Fin ss.length,
      PartHolds xs[i]? (fun x => Accepts .rounded o (ss.get i) x) (AllowsAbsent (ss.get i)) := by
  refine decides_direct rfl fun below here path v _ => ?_
  cases v with
  | array xs =>
    simp only [Check.actions, List.forall_mem_map, Json.array.injEq, forall_eq']
    refine Iff.trans ?_ (forall_mem_zipIdx_iff (S := fun s i =>
      PartHolds xs[i]? (fun x => Accepts .rounded o s x) (AllowsAbsent s)))
    refine forall_mem_iff_of_forall₂ (forall₂_zipIdx h 0) ?_
    rintro ⟨s, i⟩ ⟨n, _⟩ ⟨hn, rfl⟩
    exact hn.part below here path xs[i]? (.index i)
  | _ => simp [Check.actions]

theorem forall_holds_part_iff {entries : Members} {ns : List (String × Node)}
    (h : List.Forall₂ (fun e n => n.1 = e.1 ∧ n.2.Means o e.2) entries ns) (below : Answers)
    (here : Target → Bool) (path : Path) (v : Json) :
    (∀ n ∈ ns, Action.holds below here path (match v.get? n.1 with
      | some w => .visit n.2 w (some (.name n.1))
      | none => .absent n.2.heading (.name n.1)) = true) ↔
      ∀ e ∈ entries,
        PartHolds (v.get? e.1) (fun w => Accepts .rounded o e.2 w) (AllowsAbsent e.2) := by
  refine forall_mem_iff_of_forall₂ h ?_
  rintro ⟨name, x⟩ ⟨name', n⟩ ⟨hname, hn⟩
  obtain rfl : name' = name := hname
  exact hn.part below here path (v.get? name') (.name name')

theorem decides_properties {entries : Members} {ns : List (String × Node)} {skipNull : Bool}
    (h : List.Forall₂ (fun e n => n.1 = e.1 ∧ n.2.Means o e.2) entries ns)
    (hs : skipNull = true ↔ AllowsNull ms) :
    Decides ms [.properties ns skipNull] fun v => (v = .null → ¬AllowsNull ms) →
      ∀ e ∈ entries,
        PartHolds (v.get? e.1) (fun w => Accepts .rounded o e.2 w) (AllowsAbsent e.2) := by
  refine decides_direct rfl fun below here path v _ => ?_
  rw [← forall_holds_part_iff h below here path v]
  cases v with
  | object members =>
    simp only [Check.actions, List.forall_mem_map, reduceCtorEq, false_implies, forall_const]
    rfl
  | null =>
    simp only [Check.actions, forall_const, ← hs]
    cases skipNull with
    | true => simp
    | false =>
      simp only [cond_false, List.forall_mem_map, Bool.false_eq_true, not_false_eq_true,
        forall_const]
      rfl
  | _ =>
    simp only [Check.actions, List.forall_mem_map, reduceCtorEq, false_implies, forall_const]
    rfl

end Decides

end JsonSchema
