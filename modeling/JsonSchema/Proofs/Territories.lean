import JsonSchema.Proofs.DistinctNames
import JsonSchema.Proofs.Outcomes
import JsonSchema.Proofs.Trimming

/-!
# The parts that a check may change

A check without nodes for the value itself changes a value part by part: at the segments where it
has a nested node to run, and at the names that it rejects. The other parts, and the kind of the
value, stay as they are.

* `Check.Covers`: a check may change the part at a segment;
* `Json.AgreesOn`: values with the same parts at certain segments;
* `Check.apply_agrees`: a check leaves the parts that it does not cover;
* `Check.admits_distinct`: each step leaves names distinct, if the defaults have distinct names.
-/

namespace JsonSchema

/-! ## Values that agree on parts -/

/-- Both values are objects, or arrays, or the same. -/
inductive Json.SameKind : Json → Json → Prop
  | refl (v : Json) : SameKind v v
  | array (xs ys : List Json) : SameKind (.array xs) (.array ys)
  | object (ms ns : Members) : SameKind (.object ms) (.object ns)

/-- Two values of one kind with the same parts at certain segments. -/
structure Json.AgreesOn (A : Segment → Prop) (v w : Json) : Prop where
  kind : v.SameKind w
  child : ∀ seg, A seg → w.child? seg = v.child? seg

namespace Json.AgreesOn

variable {A B : Segment → Prop} {u v w : Json}

theorem refl (v : Json) : v.AgreesOn A v := ⟨.refl v, fun _ _ => rfl⟩

theorem trans (h : u.AgreesOn A v) (h' : v.AgreesOn A w) : u.AgreesOn A w where
  kind := by
    cases h.kind with
    | refl => exact h'.kind
    | array => cases h'.kind <;> exact .array ..
    | object => cases h'.kind <;> exact .object ..
  child seg hseg := (h'.child seg hseg).trans (h.child seg hseg)

theorem mono (h : v.AgreesOn A w) (hB : ∀ seg, B seg → A seg) : v.AgreesOn B w :=
  ⟨h.kind, fun seg hseg => h.child seg (hB seg hseg)⟩

theorem array {xs ys : List Json} (h : ∀ i, A (.index i) → ys[i]? = xs[i]?) :
    (Json.array xs).AgreesOn A (.array ys) := by
  refine ⟨.array xs ys, fun seg hseg => ?_⟩
  cases seg with
  | name => rfl
  | index i => exact h i hseg

theorem object {ms ns : Members} (h : ∀ name, A (.name name) → ns.lookup name = ms.lookup name) :
    (Json.object ms).AgreesOn A (.object ns) := by
  refine ⟨.object ms ns, fun seg hseg => ?_⟩
  cases seg with
  | name name => exact h name hseg
  | index => rfl

end Json.AgreesOn

/-! ## Parts by their segments -/

section

variable {c : Check} {v w : Json} {k : Node} {seg : Segment}

theorem Check.Comes.child? (hd : v.distinct) (h : c.Comes v k w (some seg)) :
    v.child? seg = some w := by
  cases h with
  | additional he _ => exact lookup_eq_some_of_mem (Json.distinct_object.1 hd).1 he
  | item hx => exact hx
  | pattern _ he _ => exact lookup_eq_some_of_mem (Json.distinct_object.1 hd).1 he
  | tupleItem _ hx => exact hx
  | property _ hw => exact hw
  | itemPast _ hx => exact hx

/-- A check comes to each part at a segment where it has a nested node to run. -/
theorem Check.Sends.comes (h : c.Sends k (some seg)) (hw : v.child? seg = some w) :
    c.Comes v k w (some seg) := by
  cases h with
  | @additional _ _ name hdeclared =>
    cases v with
    | object ms => exact .additional (e := (name, w)) (mem_of_lookup hw) hdeclared
    | _ => cases hw
  | item =>
    cases v with
    | array xs => exact .item hw
    | _ => cases hw
  | @pattern _ _ name hf ha =>
    cases v with
    | object ms => exact .pattern (e := (name, w)) hf (mem_of_lookup hw) ha
    | _ => cases hw
  | tupleItem hk =>
    cases v with
    | array xs => exact .tupleItem hk hw
    | _ => cases hw
  | property he =>
    cases v with
    | object ms => exact .property he hw
    | _ => cases hw
  | itemPast hlimit =>
    cases v with
    | array xs => exact .itemPast hlimit hw
    | _ => cases hw

end

/-! ## What a check covers -/

/-- A check may change the part at a segment: it runs a nested node there, or it rejects the
name. -/
inductive Check.Covers : Check → Segment → Prop
  | sent {c : Check} {k : Node} {seg : Segment} : c.Sends k (some seg) → Covers c seg
  | rejected {declared : Declared} {place : Path} {name : String} : declared.has name = false →
      Covers (.closed declared place) (.name name)

theorem eq_of_forall₂_zipIdx {Q : Nat → Json → Json → Prop} {xs ys : List Json}
    (h : List.Forall₂ (fun x y => Q x.2 x.1 y) xs.zipIdx ys) {i : Nat}
    (hQ : ∀ x y, Q i x y → y = x) :
    ys[i]? = xs[i]? := by
  have hlength := h.length_eq
  rw [List.length_zipIdx] at hlength
  by_cases hi : i < xs.length
  · have hi' : i < ys.length := hlength ▸ hi
    have hQi := h.get (by simpa using hi) hi'
    simp only [List.get_eq_getElem, List.getElem_zipIdx, Nat.zero_add] at hQi
    rw [List.getElem?_eq_getElem hi, List.getElem?_eq_getElem hi', hQ _ _ hQi]
  · rw [List.getElem?_eq_none (Nat.not_lt.1 hi),
      List.getElem?_eq_none (hlength ▸ Nat.not_lt.1 hi)]

theorem lookup_eq_of_forall₂ {Q : String → Json → Json → Prop} {ms ns : Members}
    (h : List.Forall₂ (fun e f => e.1 = f.1 ∧ Q e.1 e.2 f.2) ms ns) {name : String}
    (hQ : ∀ x y, Q name x y → y = x) : ns.lookup name = ms.lookup name := by
  have hnames := map_fst_of_forall₂ h
  cases hx : ms.lookup name with
  | none =>
    rw [← Option.not_isSome_iff_eq_none, Members.lookup_isSome_iff, ← hnames,
      ← Members.lookup_isSome_iff, hx]
    simp
  | some x =>
    have hmem : (ns.lookup name).isSome := by
      rw [Members.lookup_isSome_iff, ← hnames, ← Members.lookup_isSome_iff, hx]
      rfl
    obtain ⟨y, hy⟩ := Option.isSome_iff_exists.1 hmem
    rw [hy, hQ x y (lookup_of_forall₂ h hx hy)]

section

variable {m : Changes} {c : Check}

/-- Each step of a check leaves the parts that the check does not cover. -/
theorem Check.admits_agreeing : c.Admits m (Json.AgreesOn fun seg => ¬c.Covers seg)
    fun seg x y => ¬c.Covers seg → y = x where
  refl := .refl
  trans := .trans
  partRefl _ _ _ := rfl
  partTrans h h' hseg := (h' hseg).trans (h hseg)
  items h := .array fun i hi =>
    eq_of_forall₂_zipIdx (Q := fun i x y => ¬c.Covers (.index i) → y = x) h fun _ _ hxy => hxy hi
  members h := .object fun name hname =>
    lookup_eq_of_forall₂ (Q := fun name x y => ¬c.Covers (.name name) → y = x) h
      fun _ _ hxy => hxy hname
  replace := by
    intro ms name x y hx h
    refine .object fun key hkey => ?_
    rw [Members.lookup_replace]
    split
    · next hk =>
      subst hk
      rw [hx, h hkey]
      rfl
    · rfl
  strip := by
    rintro declared place rfl _ ms
    refine .object fun name hname => ?_
    rw [Members.lookup_filter ms name declared.has, if_pos]
    by_contra hrejected
    exact hname (.rejected (Bool.eq_false_iff.2 hrejected))
  append := by
    intro xs k x y hk _ _
    refine .array fun i hi => ?_
    have hne : i ≠ xs.length := by
      rintro rfl
      exact hi (.sent hk.sends)
    rcases Nat.lt_or_gt_of_ne hne with hlt | hgt
    · exact List.getElem?_append_left hlt
    · rw [List.getElem?_eq_none (by simp; omega), List.getElem?_eq_none hgt.le]
  add := by
    intro ms name k x y hk _ _ _
    refine .object fun key hkey => ?_
    have hne : (key == name) = false := by
      rw [beq_eq_false_iff_ne]
      rintro rfl
      exact hkey (.sent hk.sends)
    rw [List.lookup_append, List.lookup_cons, hne]
    simp

/-- Each step of a check leaves names distinct, if all defaults that it fills in have distinct
names. -/
theorem Check.admits_distinct (hfills : ∀ k seg x, c.Fills k seg →
      k.heading.filling? m = some x → x.distinct) :
    c.Admits m (fun v w => v.distinct → w.distinct) fun _ v w => v.distinct → w.distinct where
  refl _ := id
  trans h h' := h' ∘ h
  partRefl _ _ := id
  partTrans h h' := h' ∘ h
  items := by
    intro xs ys h hd
    refine Json.distinct_array.2 fun y hy => ?_
    obtain ⟨i, hi, rfl⟩ := List.getElem_of_mem hy
    have hi' : i < xs.zipIdx.length := h.length_eq ▸ hi
    have hpart := h.get hi' hi
    simp only [List.get_eq_getElem, List.getElem_zipIdx] at hpart
    exact hpart (Json.distinct_array.1 hd _ (List.getElem_mem _))
  members := by
    intro ms ns h hd
    obtain ⟨hnames, hparts⟩ := Json.distinct_object.1 hd
    rw [map_fst_of_forall₂ (Q := fun _ v w => v.distinct → w.distinct) h] at hnames
    refine Json.distinct_object.2 ⟨hnames, fun e he => ?_⟩
    obtain ⟨i, hi, rfl⟩ := List.getElem_of_mem he
    have hi' : i < ms.length := h.length_eq ▸ hi
    exact (h.get hi' hi).2 (hparts _ (List.getElem_mem _))
  replace := by
    intro ms name x y hx h hd
    obtain ⟨hnames, hparts⟩ := Json.distinct_object.1 hd
    rw [← ms.map_fst_replace name y] at hnames
    refine Json.distinct_object.2 ⟨hnames, List.forall_mem_map.2 fun e he => ?_⟩
    split
    · exact h (hparts _ (mem_of_lookup hx))
    · exact hparts e he
  strip := by
    intro declared _ _ _ ms hd
    obtain ⟨hnames, hparts⟩ := Json.distinct_object.1 hd
    refine Json.distinct_object.2 ⟨hnames.sublist (List.filter_sublist.map _), fun e he => ?_⟩
    exact hparts e (List.mem_filter.1 he).1
  append := by
    intro xs k x y hk hx h hd
    have hy := h (hfills k _ x hk hx)
    exact Json.distinct_array.2
      (List.forall_mem_append.2 ⟨Json.distinct_array.1 hd, List.forall_mem_singleton.2 hy⟩)
  add := by
    intro ms name k x y hk hnone hx h hd
    have hnew : Members.insert ms name y = ms ++ [(name, y)] := by
      rw [Members.insert, Members.has, hnone]
      rfl
    exact hnew ▸ Members.distinct_insert hd (h (hfills k _ x hk hx))

variable {s : Scope} {depth : Nat} {h : Heading} {p : Site}

/-- **A check leaves the parts that it does not cover.** -/
theorem Check.apply_agrees (htarget : c.target? = none) (hhere : ∀ k, ¬c.Sends k none) (v : Json) :
    Leaves (c.apply s m depth h v p) (v.AgreesOn fun seg => ¬c.Covers seg) := by
  refine Check.leaves_of_visits admits_agreeing (fun k hk => absurd hk (hhere k))
    (fun k seg hk level _ x _ y _ _ hseg => absurd (.sent hk) hseg) (fun k n hk => ?_) v
  rw [htarget] at hk
  cases hk

end

end JsonSchema
