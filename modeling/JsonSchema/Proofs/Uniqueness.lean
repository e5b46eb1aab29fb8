import JsonSchema.Proofs.Equality

/-!
# Values that are all different

Equality of values is an equivalence, so it does not matter in which order a list is searched for
two equal items, nor in which orientation they are compared, nor which of several equal values
stands in the list.

* `Json.same_refl`, `same_symm`, `same_trans`: equality of values of distinct names;
* `Json.allDifferent_iff_getElem`, `allDifferent_perm`, `allDifferent_of_forall₂`: lists whose items
  are all different;
* `Json.same_equivalence`: the two together.
-/

namespace JsonSchema

namespace Json

/-! ## Equality -/

section Equality

variable {u v w : Json}

theorem same_refl (hv : v.distinct) : v.Same v :=
  (same_iff_corresponds hv).2 (.refl (fun a => a.same_of_eq a rfl) v hv)

/-- What is equal to a value of distinct names has distinct names itself. -/
theorem distinct_of_same (hv : v.distinct) (h : v.Same w) : w.distinct :=
  (corresponds_of_same hv h).distinct_right

theorem same_symm (hv : v.distinct) (h : v.Same w) : w.Same v :=
  (same_iff_corresponds (distinct_of_same hv h)).2 (corresponds_of_same hv h).equal_symm

/-- The names of the last two values need not be distinct beforehand. -/
theorem same_trans_of_distinct (hu : u.distinct) (h : u.Same v) (h' : v.Same w) : u.Same w := by
  have hv := distinct_of_same hu h
  exact same_trans (fun _ _ => id) h (corresponds_of_same hv h')

end Equality

/-! ## Lists without equal items -/

section Lists

variable {xs ys : List Json}

/-- No two positions hold equal values. -/
theorem allDifferent_iff_getElem (hxs : ∀ x ∈ xs, x.distinct) :
    allDifferent xs = true ↔
      ∀ i j (hi : i < xs.length) (hj : j < xs.length), i ≠ j → ¬xs[i].Same xs[j] := by
  rw [allDifferent_iff, List.pairwise_iff_getElem]
  constructor
  · intro h i j hi hj hne hsame
    rcases Nat.lt_or_gt_of_ne hne with hlt | hlt
    · exact Bool.false_ne_true ((h i j hi hj hlt).symm.trans hsame)
    · have hback := same_symm (hxs _ (List.getElem_mem hi)) hsame
      exact Bool.false_ne_true ((h j i hj hi hlt).symm.trans hback)
  · intro h i j hi hj hlt
    simpa using h i j hi hj (Nat.ne_of_lt hlt)

theorem allDifferent_perm (hxs : ∀ x ∈ xs, x.distinct) (h : xs.Perm ys) :
    allDifferent xs = allDifferent ys := by
  have hall : xs.Pairwise (fun x y => x.same y = false) ↔
      xs.Pairwise fun x y => x.distinct → y.distinct → ¬x.Same y := by
    refine List.Pairwise.iff_of_mem fun {x y} hx hy => ?_
    simp [hxs x hx, hxs y hy]
  have hall' : ys.Pairwise (fun x y => x.same y = false) ↔
      ys.Pairwise fun x y => x.distinct → y.distinct → ¬x.Same y := by
    refine List.Pairwise.iff_of_mem fun {x y} hx hy => ?_
    simp [hxs x (h.mem_iff.2 hx), hxs y (h.mem_iff.2 hy)]
  rw [Bool.eq_iff_iff, allDifferent_iff, allDifferent_iff, hall, hall']
  exact h.pairwise_iff fun hxy hy hx hyx => hxy hx hy (same_symm hy hyx)

theorem allDifferent_of_forall₂ (hxs : ∀ x ∈ xs, x.distinct)
    (h : List.Forall₂ Json.Same xs ys) : allDifferent xs = allDifferent ys := by
  refine allDifferent_congr ?_
  induction h with
  | nil => exact .nil
  | cons hxy _ ih =>
    obtain ⟨hx, hxs⟩ := List.forall_mem_cons.1 hxs
    exact .cons (corresponds_of_same hx hxy) (ih hxs)

end Lists

/-- **Equality of values is an equivalence**, and whether the items of a list are all different is a
question about its pairs of positions. So it has the same answer for the items in any order, and
for items that are equal to them. -/
theorem same_equivalence :
    ((∀ a : Json, a.distinct → a.Same a) ∧
      (∀ a b : Json, a.distinct → a.Same b → b.Same a) ∧
      ∀ a b c : Json, a.distinct → a.Same b → b.Same c → a.Same c) ∧
    ∀ xs : List Json, (∀ x ∈ xs, x.distinct) →
      (allDifferent xs = true ↔
        ∀ i j (hi : i < xs.length) (hj : j < xs.length), i ≠ j → ¬xs[i].Same xs[j]) ∧
      (∀ ys, xs.Perm ys → allDifferent ys = allDifferent xs) ∧
      ∀ ys, List.Forall₂ Json.Same xs ys → allDifferent ys = allDifferent xs := by
  refine ⟨⟨fun a => same_refl, fun a b => same_symm, fun a b c => same_trans_of_distinct⟩,
    fun xs hxs => ⟨allDifferent_iff_getElem hxs, fun ys h => ?_, fun ys h => ?_⟩⟩
  · exact (allDifferent_perm hxs h).symm
  · exact (allDifferent_of_forall₂ hxs h).symm

/-- Objects with a number in a form of choice. The first two numbers are neighbours, of which only
the first is a double. -/
def numbered (form : Int → Number) (order : Members → Members) : List Json :=
  [.object (order [("n", .number (form 9007199254740992)), ("xs", .array [])]),
    .object (order [("n", .number (.integer 9007199254740993)), ("xs", .array [])]),
    .object (order [("n", .number (form 1)), ("xs", .array [.number (form 1)])])]

theorem same_equivalence_numbered :
    (∀ x ∈ numbered .integer id, x.distinct) ∧
      List.Forall₂ Json.Same (numbered .integer id)
        (numbered (fun n => .double (.ofInt n)) List.reverse) ∧
      (numbered .integer id).Perm (numbered .integer id).reverse ∧
      allDifferent (numbered (fun n => .double (.ofInt n)) List.reverse) = true ∧
      allDifferent (numbered .integer id).reverse = true ∧
      ¬(numbered .integer id)[0].Same (numbered .integer id)[1] := by
  have hdistinct : ∀ x ∈ numbered .integer id, x.distinct := by decide +kernel
  have hequal : List.Forall₂ Json.Same (numbered .integer id)
      (numbered (fun n => .double (.ofInt n)) List.reverse) :=
    .cons (by decide +kernel) (.cons (by decide +kernel) (.cons (by decide +kernel) .nil))
  have hperm : (numbered .integer id).Perm (numbered .integer id).reverse :=
    (List.reverse_perm _).symm
  have hall : allDifferent (numbered .integer id) = true := by decide +kernel
  obtain ⟨hiff, hreordered, hequals⟩ := same_equivalence.2 _ hdistinct
  exact ⟨hdistinct, hequal, hperm, (hequals _ hequal).trans hall, (hreordered _ hperm).trans hall,
    hiff.1 hall 0 1 (by decide) (by decide) (by decide)⟩

end Json

end JsonSchema
