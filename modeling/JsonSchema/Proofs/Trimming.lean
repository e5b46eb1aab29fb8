import JsonSchema.Proofs.DistinctNames
import JsonSchema.Proofs.Outcomes

/-!
# Trimmed values

A run that fills in nothing can only remove members. What it leaves is trimmed from the value, and a
trimmed value has the same type, and it has members and items where the value has them.

* `Json.TrimmedFrom`: a value is another one without some members, at any depth;
* `Json.TrimmedFrom.get?`, `Json.TrimmedFrom.getElem?`: the parts are trimmed from the parts;
* `Changes.admits_trimming`, `Node.apply_trims`: what a run leaves is trimmed from its value.
-/

namespace JsonSchema

/-- The first value is the second one without some members, at any depth. -/
inductive Json.TrimmedFrom : Json → Json → Prop
  | refl (v : Json) : TrimmedFrom v v
  | array {xs ys : List Json} : xs.length = ys.length →
      (∀ (i : Nat) x y, xs[i]? = some x → ys[i]? = some y → TrimmedFrom x y) →
      TrimmedFrom (.array xs) (.array ys)
  | object {ms ns : Members} : (ms.map Prod.fst).Sublist (ns.map Prod.fst) →
      (∀ name x y, ms.lookup name = some x → ns.lookup name = some y → TrimmedFrom x y) →
      TrimmedFrom (.object ms) (.object ns)

namespace Json.TrimmedFrom

variable {u v w : Json} {xs ys : List Json} {ms ns : Members} {name : String}

/-! ## Parts -/

theorem exists_array (h : (Json.array xs).TrimmedFrom v) : ∃ ys, v = .array ys := by
  cases h with
  | refl => exact ⟨xs, rfl⟩
  | @array _ ys => exact ⟨ys, rfl⟩

theorem exists_object (h : (Json.object ms).TrimmedFrom v) : ∃ ns, v = .object ns := by
  cases h with
  | refl => exact ⟨ms, rfl⟩
  | @object _ ns => exact ⟨ns, rfl⟩

theorem length_eq (h : (Json.array xs).TrimmedFrom (.array ys)) : xs.length = ys.length := by
  cases h with
  | refl => rfl
  | array hlen => exact hlen

theorem getElem? (h : (Json.array xs).TrimmedFrom (.array ys)) {i : Nat} {x : Json}
    (hx : xs[i]? = some x) : ∃ y, ys[i]? = some y ∧ x.TrimmedFrom y := by
  obtain ⟨hi, -⟩ := List.getElem?_eq_some_iff.1 hx
  rw [h.length_eq] at hi
  refine ⟨ys[i], List.getElem?_eq_getElem hi, ?_⟩
  cases h with
  | refl =>
    rw [List.getElem?_eq_getElem hi] at hx
    rw [Option.some.inj hx]
    exact refl x
  | array _ hitems => exact hitems i x _ hx (List.getElem?_eq_getElem hi)

theorem names (h : (Json.object ms).TrimmedFrom (.object ns)) :
    (ms.map Prod.fst).Sublist (ns.map Prod.fst) := by
  cases h with
  | refl => exact List.Sublist.refl _
  | object hnames => exact hnames

theorem lookup (h : (Json.object ms).TrimmedFrom (.object ns)) {x : Json}
    (hx : ms.lookup name = some x) : ∃ y, ns.lookup name = some y ∧ x.TrimmedFrom y := by
  have hmem : name ∈ ns.map Prod.fst :=
    h.names.subset ((ms.lookup_isSome_iff name).1 (by rw [hx]; rfl))
  obtain ⟨y, hy⟩ := Option.isSome_iff_exists.1 ((ns.lookup_isSome_iff name).2 hmem)
  refine ⟨y, hy, ?_⟩
  cases h with
  | refl =>
    rw [Option.some.inj (hx.symm.trans hy)]
    exact refl y
  | object _ hmembers => exact hmembers name x y hx hy

theorem get? (h : u.TrimmedFrom v) {x : Json} (hx : u.get? name = some x) :
    ∃ y, v.get? name = some y ∧ x.TrimmedFrom y := by
  cases h with
  | refl => exact ⟨x, hx, refl x⟩
  | array => cases hx
  | object hnames hmembers => exact (object hnames hmembers).lookup hx

theorem get?_isSome (h : u.TrimmedFrom v) (hu : (u.get? name).isSome) : (v.get? name).isSome := by
  obtain ⟨x, hx⟩ := Option.isSome_iff_exists.1 hu
  obtain ⟨y, hy, -⟩ := h.get? hx
  rw [hy]
  rfl

/-! ## The order -/

theorem trans (h : u.TrimmedFrom v) (h' : v.TrimmedFrom w) : u.TrimmedFrom w := by
  induction h generalizing w with
  | refl => exact h'
  | @array xs ys hlen hitems ih =>
    cases h' with
    | refl => exact .array hlen hitems
    | @array _ zs hlen' hitems' =>
      refine .array (hlen.trans hlen') fun i x z hx hz => ?_
      obtain ⟨y, hy, -⟩ := (array hlen hitems).getElem? hx
      exact ih i x y hx hy (hitems' i y z hy hz)
  | @object ms ns hnames hmembers ih =>
    cases h' with
    | refl => exact .object hnames hmembers
    | object hnames' hmembers' =>
      refine .object (hnames.trans hnames') fun name x z hx hz => ?_
      obtain ⟨y, hy, -⟩ := (object hnames hmembers).lookup hx
      exact ih name x y hx hy (hmembers' name y z hy hz)

theorem distinct (h : u.TrimmedFrom v) (hv : v.distinct) : u.distinct := by
  induction h with
  | refl => exact hv
  | @array xs ys hlen hitems ih =>
    refine distinct_array.2 fun x hx => ?_
    obtain ⟨i, hi⟩ := List.getElem?_of_mem hx
    obtain ⟨y, hy, -⟩ := (array hlen hitems).getElem? hi
    exact ih i x y hi hy (distinct_array.1 hv y (List.mem_of_getElem? hy))
  | @object ms ns hnames hmembers ih =>
    obtain ⟨hnodup, hparts⟩ := distinct_object.1 hv
    have hnodup' := hnodup.sublist hnames
    refine distinct_object.2 ⟨hnodup', fun m hm => ?_⟩
    have hx := lookup_eq_some_of_mem hnodup' hm
    obtain ⟨y, hy, -⟩ := (object hnames hmembers).lookup hx
    exact ih m.1 m.2 y hx hy (hparts _ (mem_of_lookup hy))

/-! ## What headings say of trimmed values -/

theorem acceptsType (h : u.TrimmedFrom v) (heading : Heading) :
    heading.acceptsType u = heading.acceptsType v := by
  have htypes : ∀ t : TypeName, t.holds u = t.holds v := by
    intro t
    cases h <;> cases t <;> rfl
  simp only [Heading.acceptsType, TypeSet.holds, htypes]

/-- What a value lacks is missing in trimmed values as well. -/
theorem missing_eq_nil (h : u.TrimmedFrom v) {heading : Heading} (hu : heading.missing u = []) :
    heading.missing v = [] := by
  cases h with
  | refl => exact hu
  | array => rfl
  | @object ms ns hnames hmembers =>
    rw [Heading.missing, List.filter_eq_nil_iff] at hu ⊢
    intro name hname hns
    apply hu name hname
    rw [Bool.not_eq_true', Members.has, Option.isSome_eq_false_iff, Option.isNone_iff_eq_none]
      at hns ⊢
    by_contra hms
    obtain ⟨x, hx⟩ := Option.ne_none_iff_exists'.1 hms
    obtain ⟨y, hy, -⟩ := (object hnames hmembers).lookup hx
    rw [hy] at hns
    cases hns

end Json.TrimmedFrom

/-! ## Runs -/

theorem lookup_of_forall₂ {Q : String → Json → Json → Prop} {ms ns : Members}
    (h : List.Forall₂ (fun e f => e.1 = f.1 ∧ Q e.1 e.2 f.2) ms ns) {name : String} {v w : Json}
    (hv : ms.lookup name = some v) (hw : ns.lookup name = some w) : Q name v w := by
  induction h with
  | nil => cases hv
  | @cons e f ms ns he _ ih =>
    obtain ⟨first, x⟩ := e
    obtain ⟨first', y⟩ := f
    obtain ⟨rfl, hxy⟩ := he
    rw [List.lookup_cons] at hv hw
    cases hb : name == first with
    | true =>
      simp only [hb] at hv hw
      cases hv
      cases hw
      rw [eq_of_beq hb]
      exact hxy
    | false =>
      simp only [hb] at hv hw
      exact ih hv hw

theorem map_fst_of_forall₂ {Q : String → Json → Json → Prop} {ms ns : Members}
    (h : List.Forall₂ (fun e f => e.1 = f.1 ∧ Q e.1 e.2 f.2) ms ns) :
    ms.map Prod.fst = ns.map Prod.fst := by
  induction h with
  | nil => rfl
  | cons he _ ih => rw [List.map_cons, List.map_cons, he.1, ih]

open Json (TrimmedFrom)

/-- Where nothing is filled in, the single changes trim. -/
theorem Changes.admits_trimming (m : Changes) :
    m.Admits (fun _ => False) fun v w => w.TrimmedFrom v where
  refl := .refl
  trans h h' := h'.trans h
  items := by
    intro xs ys h
    refine .array h.length_eq.symm fun i y x hy hx => ?_
    obtain ⟨hi, rfl⟩ := List.getElem?_eq_some_iff.1 hx
    obtain ⟨hi', rfl⟩ := List.getElem?_eq_some_iff.1 hy
    exact h.get hi hi'
  members := by
    intro ms ns h
    have hnames := map_fst_of_forall₂ (Q := fun _ v w => w.TrimmedFrom v) h
    refine .object (hnames ▸ List.Sublist.refl _) fun name y x hy hx => ?_
    exact lookup_of_forall₂ (Q := fun _ v w => w.TrimmedFrom v) h hx hy
  replace := by
    intro ms name v w hv h
    refine .object (ms.map_fst_replace name w ▸ List.Sublist.refl _) fun key y x hy hx => ?_
    rw [Members.lookup_replace, hx] at hy
    split at hy
    · next hk =>
      subst hk
      cases hy
      rw [Option.some.inj (hx.symm.trans hv)]
      exact h
    · rw [Option.some.inj hy]
      exact .refl y
  strip := by
    intro _ declared ms
    refine .object (List.filter_sublist.map _) fun name y x hy hx => ?_
    rw [Members.lookup_filter ms name fun name => declared.has name, hx] at hy
    split at hy
    · rw [Option.some.inj hy]
      exact .refl y
    · cases hy
  append _ _ _ h := h.elim
  add _ h := h.elim

section

variable {s : Scope} {m : Changes} {depth : Nat} {p : Site}
  (hs : ∀ k n, s.subroutines.lookup k = some n → n.Unfilled m)
include hs

/-- **A mutating run that fills in nothing leaves a trimmed value.** -/
theorem Node.apply_trims {n : Node} (hn : n.Unfilled m) (v : Json) :
    Leaves (n.apply s m depth v p) fun w => w.TrimmedFrom v :=
  Node.apply_leaves m.admits_trimming (fun k n hk => (hs k n hk).fillsIn) hn.fillsIn v

theorem Check.apply_trims {c : Check} (hc : ∀ k ∈ c.nodes, k.Unfilled m) (h : Heading)
    (v : Json) : Leaves (c.apply s m depth h v p) fun w => w.TrimmedFrom v :=
  Check.apply_leaves m.admits_trimming (fun k n hk => (hs k n hk).fillsIn)
    (fun k hk => (hc k hk).fillsIn) v

end

end JsonSchema
