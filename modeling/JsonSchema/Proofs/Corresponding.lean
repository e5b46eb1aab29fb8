import JsonSchema.Proofs.DistinctNames
import JsonSchema.Proofs.Pairing
import Mathlib.Data.List.Perm.Subperm

/-!
# Corresponding values

Two values correspond if they differ in the order of members only, at any depth, and in their
numbers as a relation allows. Equality of JSON values is correspondence with numbers of the same
exact value.

* `Json.SameShape`: values of one kind with related parts;
* `Json.Corresponds`: corresponding values;
* `Json.Corresponds.refl`, `symm`, `trans`: values of distinct names;
* `Json.Corresponds.sameShape`: the parts of corresponding values correspond;
* `Json.same_iff_corresponds`: equality up to the order of members and the form of numbers.
-/

namespace JsonSchema

/-- Numbers of the same exact value, whatever their form. -/
abbrev Number.Same (a b : Number) : Prop := a.same b = true

theorem Number.same_of_eq (a b : Number) (h : a = b) : a.Same b :=
  h ▸ (same_iff a a).2 rfl

namespace Json

/-- Values of one kind whose items are related in their order, and whose members by their names.
Numbers have the same exact value. -/
inductive SameShape (V : Json → Json → Prop) : Json → Json → Prop
  | null : SameShape V null null
  | bool (b : Bool) : SameShape V (bool b) (bool b)
  | number {a b : Number} : a.Same b → SameShape V (number a) (number b)
  | string (s : String) : SameShape V (string s) (string s)
  | array {xs ys : List Json} : List.Forall₂ V xs ys → SameShape V (array xs) (array ys)
  | object {ms ns : Members} : ms.length = ns.length → Paired (SameKey V) ms ns →
      (∀ name, Option.Rel V (ms.lookup name) (ns.lookup name)) →
      SameShape V (object ms) (object ns)

/-- Values that differ in the order of members, and in their numbers as is allowed. -/
inductive Corresponds (R : Number → Number → Prop) : Json → Json → Prop
  | null : Corresponds R null null
  | bool (b : Bool) : Corresponds R (bool b) (bool b)
  | number {a b : Number} : R a b → Corresponds R (number a) (number b)
  | string (s : String) : Corresponds R (string s) (string s)
  | array {xs ys : List Json} : xs.length = ys.length →
      (∀ (i : Nat) x y, xs[i]? = some x → ys[i]? = some y → Corresponds R x y) →
      Corresponds R (array xs) (array ys)
  | object {ms ns : Members} : (ms.map Prod.fst).Nodup →
      (ms.map Prod.fst).Perm (ns.map Prod.fst) →
      (∀ name x y, ms.lookup name = some x → ns.lookup name = some y → Corresponds R x y) →
      Corresponds R (object ms) (object ns)

end Json

/-! ## Parts -/

/-- Members of the same names with related values. -/
theorem Members.rel_lookup {V : Json → Json → Prop} {ms ns : Members}
    (hnames : (ms.map Prod.fst).Perm (ns.map Prod.fst))
    (h : ∀ name x y, ms.lookup name = some x → ns.lookup name = some y → V x y) (name : String) :
    Option.Rel V (ms.lookup name) (ns.lookup name) := by
  have hiff : (ms.lookup name).isSome ↔ (ns.lookup name).isSome := by
    rw [lookup_isSome_iff, lookup_isSome_iff, hnames.mem_iff]
  cases hx : ms.lookup name with
  | none =>
    rw [hx] at hiff
    rw [Option.not_isSome_iff_eq_none.1 fun hy => Bool.false_ne_true (hiff.2 hy)]
    exact .none
  | some x =>
    obtain ⟨y, hy⟩ := Option.isSome_iff_exists.1 (hiff.1 (by rw [hx]; rfl))
    rw [hy]
    exact .some (h name x y hx hy)

namespace Json

/-- What holds of a value as soon as it holds of its parts holds of all values. -/
theorem parts_induction {P : Json → Prop} (step : ∀ v, (∀ w ∈ v.parts, P w) → P v) (v : Json) :
    P v :=
  (measure (sizeOf (α := Json))).wf.induction v fun v ih =>
    step v fun w hw => ih w (sizeOf_lt_of_mem_parts hw)

variable {R R' R'' : Number → Number → Prop} {u v w : Json}

namespace Corresponds

theorem forall₂ {xs ys : List Json} (h : Corresponds R (.array xs) (.array ys)) :
    List.Forall₂ (Corresponds R) xs ys := by
  cases h with
  | array hlen hitems =>
    refine List.forall₂_iff_get.2 ⟨hlen, fun i hx hy => ?_⟩
    exact hitems i _ _ (List.getElem?_eq_getElem hx) (List.getElem?_eq_getElem hy)

theorem of_forall₂ {xs ys : List Json} (h : List.Forall₂ (Corresponds R) xs ys) :
    Corresponds R (.array xs) (.array ys) := by
  refine .array h.length_eq fun i x y hx hy => ?_
  have hi := rel_getElem?_of_forall₂ h i
  rw [hx, hy] at hi
  cases hi with
  | some hxy => exact hxy

theorem lookup {ms ns : Members} (h : Corresponds R (.object ms) (.object ns)) (name : String) :
    Option.Rel (Corresponds R) (ms.lookup name) (ns.lookup name) := by
  cases h with
  | object _ hnames hmembers => exact Members.rel_lookup hnames hmembers name

theorem names_perm {ms ns : Members} (h : Corresponds R (.object ms) (.object ns)) :
    (ms.map Prod.fst).Perm (ns.map Prod.fst) := by
  cases h with
  | object _ hnames _ => exact hnames

theorem nodup_names {ms ns : Members} (h : Corresponds R (.object ms) (.object ns)) :
    (ms.map Prod.fst).Nodup := by
  cases h with
  | object hnodup _ _ => exact hnodup

/-- Every member has one of its name in the other object. -/
theorem members {ms ns : Members} (h : Corresponds R (.object ms) (.object ns)) :
    Paired (SameKey (Corresponds R)) ms ns := by
  have hms := h.nodup_names
  have hns := h.names_perm.nodup_iff.1 hms
  constructor
  · rintro ⟨name, x⟩ he
    obtain ⟨y, hy, hxy⟩ := exists_right_of_rel (h.lookup name) (lookup_eq_some_of_mem hms he)
    exact ⟨(name, y), mem_of_lookup hy, rfl, hxy⟩
  · rintro ⟨name, y⟩ hf
    obtain ⟨x, hx, hxy⟩ := exists_left_of_rel (h.lookup name) (lookup_eq_some_of_mem hns hf)
    exact ⟨(name, x), mem_of_lookup hx, rfl, hxy⟩

/-- **The parts of corresponding values correspond.** -/
theorem sameShape (hR : ∀ a b, R a b → a.Same b) (h : Corresponds R v w) :
    SameShape (Corresponds R) v w := by
  cases v with
  | array xs =>
    cases h with
    | array hlen hitems => exact .array (Corresponds.array hlen hitems).forall₂
  | object ms =>
    cases h with
    | @object _ ns hnodup hnames hmembers =>
      have h := Corresponds.object hnodup hnames hmembers
      have hlen : ms.length = ns.length := by simpa using hnames.length_eq
      exact .object hlen h.members h.lookup
  | number a =>
    cases h with
    | number hab => exact .number (hR _ _ hab)
  | null =>
    cases h
    exact .null
  | bool b =>
    cases h
    exact .bool b
  | string s =>
    cases h
    exact .string s

/-! ## Order -/

theorem symm (hR : ∀ a b, R a b → R' b a) (h : Corresponds R v w) : Corresponds R' w v := by
  induction h with
  | null => exact .null
  | bool b => exact .bool b
  | number hab => exact .number (hR _ _ hab)
  | string s => exact .string s
  | array hlen _ ih => exact .array hlen.symm fun i y x hy hx => ih i x y hx hy
  | object hnodup hnames _ ih =>
    exact .object (hnames.nodup_iff.1 hnodup) hnames.symm fun name y x hy hx => ih name x y hx hy

theorem trans (hR : ∀ a b c, R a b → R' b c → R'' a c) (h : Corresponds R u v)
    (h' : Corresponds R' v w) : Corresponds R'' u w := by
  induction h generalizing w with
  | null =>
    cases h'
    exact .null
  | bool b =>
    cases h'
    exact .bool b
  | number hab =>
    cases h' with
    | number hbc => exact .number (hR _ _ _ hab hbc)
  | string s =>
    cases h'
    exact .string s
  | @array xs ys hlen _ ih =>
    cases h' with
    | array hlen' hitems' =>
      refine .array (hlen.trans hlen') fun i x z hx hz => ?_
      obtain ⟨hi, -⟩ := List.getElem?_eq_some_iff.1 hx
      have hy := List.getElem?_eq_getElem (hlen ▸ hi)
      exact ih i x _ hx hy (hitems' i _ z hy hz)
  | @object ms ns hnodup hnames hmembers ih =>
    cases h' with
    | object _ hnames' hmembers' =>
      refine .object hnodup (hnames.trans hnames') fun name x z hx hz => ?_
      obtain ⟨y, hy, -⟩ := exists_right_of_rel (Members.rel_lookup hnames hmembers name) hx
      exact ih name x y hx hy (hmembers' name y z hy hz)

theorem refl (hR : ∀ a, R a a) (v : Json) (h : v.distinct) : Corresponds R v v := by
  induction v using parts_induction with
  | _ v ih =>
  have hpart : ∀ x ∈ v.parts, Corresponds R x x := fun x hx => ih x hx (distinct_of_mem_parts h hx)
  cases v with
  | null => exact .null
  | bool b => exact .bool b
  | number a => exact .number (hR a)
  | string s => exact .string s
  | array xs =>
    refine .array rfl fun i x y hx hy => ?_
    obtain rfl : x = y := Option.some.inj (hx.symm.trans hy)
    exact hpart x (List.mem_of_getElem? hx)
  | object ms =>
    refine .object (distinct_object.1 h).1 (.refl _) fun name x y hx hy => ?_
    obtain rfl : x = y := Option.some.inj (hx.symm.trans hy)
    exact hpart x (List.mem_map_of_mem (mem_of_lookup hx))

theorem distinct_left (h : Corresponds R v w) : v.distinct := by
  induction h with
  | @array xs ys hlen _ ih =>
    refine distinct_array.2 fun x hx => ?_
    obtain ⟨i, hi⟩ := List.mem_iff_getElem?.1 hx
    obtain ⟨hlt, -⟩ := List.getElem?_eq_some_iff.1 hi
    exact ih i x _ hi (List.getElem?_eq_getElem (hlen ▸ hlt))
  | @object ms ns hnodup hnames hmembers ih =>
    refine distinct_object.2 ⟨hnodup, fun m hm => ?_⟩
    have hx := lookup_eq_some_of_mem hnodup hm
    obtain ⟨y, hy, -⟩ := exists_right_of_rel (Members.rel_lookup hnames hmembers m.1) hx
    exact ih m.1 m.2 y hx hy
  | _ => rfl

theorem distinct_right (h : Corresponds R v w) : w.distinct := by
  have hsymm : Corresponds (fun b a => R a b) w v := h.symm fun _ _ hab => hab
  exact hsymm.distinct_left

end Corresponds

/-! ## Equality of values -/

theorem sameItems_iff {xs ys : List Json} :
    sameItems xs ys = true ↔ List.Forall₂ (fun x y => x.same y = true) xs ys := by
  induction xs generalizing ys with
  | nil => cases ys <;> simp [sameItems]
  | cons x xs ih => cases ys <;> simp [sameItems, ih]

theorem sameMembers_iff {ms ns : Members} :
    sameMembers ms ns = true ↔ ∀ e ∈ ms, ∃ y, ns.lookup e.1 = some y ∧ e.2.same y = true := by
  induction ms with
  | nil => simp [sameMembers]
  | cons e ms ih =>
    obtain ⟨name, x⟩ := e
    rw [sameMembers, Bool.and_eq_true, List.forall_mem_cons, ih]
    cases ns.lookup name <;> simp

/-- Equal objects have the same names. -/
theorem names_perm_of_same {ms ns : Members} (hd : (ms.map Prod.fst).Nodup)
    (hlen : ms.length = ns.length)
    (h : ∀ e ∈ ms, ∃ y, ns.lookup e.1 = some y ∧ e.2.same y = true) :
    (ms.map Prod.fst).Perm (ns.map Prod.fst) := by
  have hsub : ms.map Prod.fst ⊆ ns.map Prod.fst := by
    intro name hname
    obtain ⟨e, he, rfl⟩ := List.mem_map.1 hname
    obtain ⟨y, hy, -⟩ := h e he
    rw [← Members.lookup_isSome_iff, hy]
    rfl
  exact (List.subperm_of_subset hd hsub).perm_of_length_le (by simp [hlen])

/-- Values that are the same have corresponding parts, if the names of the first are distinct. -/
theorem corresponds_of_same (hv : v.distinct) (h : v.same w = true) :
    v.Corresponds Number.Same w := by
  induction v using parts_induction generalizing w with
  | _ v ih =>
  have hpart : ∀ x ∈ v.parts, ∀ y, x.same y = true →
      x.Corresponds Number.Same y := fun x hx y hxy =>
    ih x hx (distinct_of_mem_parts hv hx) hxy
  cases v with
  | array xs =>
    cases w with
    | array ys =>
      rw [same, sameItems_iff] at h
      refine .of_forall₂ (List.forall₂_iff_get.2 ⟨h.length_eq, fun i hx hy => ?_⟩)
      exact hpart _ (List.get_mem xs _) _ (h.get hx hy)
    | _ => simp [same] at h
  | object ms =>
    cases w with
    | object ns =>
      rw [same, Bool.and_eq_true, beq_iff_eq, sameMembers_iff] at h
      have hd := (distinct_object.1 hv).1
      refine .object hd (names_perm_of_same hd h.1 h.2) fun name x y hx hy => ?_
      obtain ⟨y', hy', hxy⟩ := h.2 _ (mem_of_lookup hx)
      obtain rfl : y' = y := Option.some.inj (hy'.symm.trans hy)
      exact hpart x (List.mem_map_of_mem (mem_of_lookup hx)) y' hxy
    | _ => simp [same] at h
  | number a =>
    cases w with
    | number b => exact .number (by simpa [same] using h)
    | _ => simp [same] at h
  | null =>
    cases w with
    | null => exact .null
    | _ => simp [same] at h
  | bool b =>
    cases w with
    | bool c =>
      obtain rfl : b = c := by simpa [same] using h
      exact .bool b
    | _ => simp [same] at h
  | string s =>
    cases w with
    | string t =>
      obtain rfl : s = t := by simpa [same] using h
      exact .string s
    | _ => simp [same] at h

/-- Corresponding values are the same, if their numbers have the same exact values. -/
theorem same_of_corresponds (hR : ∀ a b, R a b → a.Same b) (h : v.Corresponds R w) :
    v.same w = true := by
  induction h with
  | number hab => exact hR _ _ hab
  | @array xs ys hlen _ ih =>
    rw [same, sameItems_iff, List.forall₂_iff_get]
    exact ⟨hlen, fun i hx hy =>
      ih i _ _ (List.getElem?_eq_getElem hx) (List.getElem?_eq_getElem hy)⟩
  | @object ms ns hnodup hnames hmembers ih =>
    rw [same, Bool.and_eq_true, beq_iff_eq, sameMembers_iff]
    refine ⟨by simpa using hnames.length_eq, fun e he => ?_⟩
    have hx := lookup_eq_some_of_mem hnodup he
    obtain ⟨y, hy, -⟩ := exists_right_of_rel (Members.rel_lookup hnames hmembers e.1) hx
    exact ⟨y, hy, ih e.1 e.2 y hx hy⟩
  | null => rfl
  | _ => exact beq_self_eq_true _

/-- **Values are the same** if they correspond, with numbers of the same exact values. -/
theorem same_iff_corresponds (hv : v.distinct) :
    v.same w = true ↔ v.Corresponds Number.Same w :=
  ⟨corresponds_of_same hv, same_of_corresponds fun _ _ => id⟩

namespace Corresponds

theorem equal_symm (h : v.Corresponds Number.Same w) : w.Corresponds Number.Same v :=
  h.symm fun a b hab => (Number.same_iff b a).2 ((Number.same_iff a b).1 hab).symm

theorem equal_trans (h : u.Corresponds Number.Same v) (h' : v.Corresponds Number.Same w) :
    u.Corresponds Number.Same w := by
  refine h.trans (fun a b c hab hbc => ?_) h'
  exact (Number.same_iff a c).2 (((Number.same_iff a b).1 hab).trans ((Number.same_iff b c).1 hbc))

/-- Equal values are the same as equal values. -/
theorem same_eq (h : v.Corresponds Number.Same w) {x y : Json}
    (hxy : x.Corresponds Number.Same y) : v.same x = w.same y := by
  rw [Bool.eq_iff_iff, same_iff_corresponds h.distinct_left, same_iff_corresponds h.distinct_right]
  exact ⟨fun hx => (h.equal_symm.equal_trans hx).equal_trans hxy,
    fun hy => (h.equal_trans hy).equal_trans hxy.equal_symm⟩

end Corresponds

/-- A value that is the same as another one is the same as all values that correspond to it. -/
theorem same_trans (hR : ∀ a b, R a b → a.Same b) (h : u.same v = true)
    (h' : v.Corresponds R w) : u.same w = true := by
  induction h' generalizing u with
  | @number a b hab =>
    cases u with
    | number c =>
      have hc : c.same a = true := h
      show c.same b = true
      rw [Number.same_iff] at hc ⊢
      exact hc.trans ((Number.same_iff a b).1 (hR a b hab))
    | _ => simp [same] at h
  | @array xs ys hlen _ ih =>
    cases u with
    | array zs =>
      rw [same, sameItems_iff, List.forall₂_iff_get] at h ⊢
      refine ⟨h.1.trans hlen, fun i hz hy => ?_⟩
      have hx : i < xs.length := hlen ▸ hy
      exact ih i _ _ (List.getElem?_eq_getElem hx) (List.getElem?_eq_getElem hy) (h.2 i hz hx)
    | _ => simp [same] at h
  | @object ms ns hnodup hnames hmembers ih =>
    cases u with
    | object ls =>
      rw [same, Bool.and_eq_true, beq_iff_eq, sameMembers_iff] at h ⊢
      refine ⟨h.1.trans (by simpa using hnames.length_eq), fun e he => ?_⟩
      obtain ⟨x, hx, hex⟩ := h.2 e he
      obtain ⟨y, hy, -⟩ := exists_right_of_rel (Members.rel_lookup hnames hmembers e.1) hx
      exact ⟨y, hy, ih e.1 x y hx hy hex⟩
    | _ => simp [same] at h
  | _ => exact h

end Json

end JsonSchema
