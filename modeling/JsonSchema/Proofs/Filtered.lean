import JsonSchema.Proofs.Still

/-!
# What a mutating run leaves is left alone

A mutating run that fills in nothing comes to each closed node when it has still the members that
the end leaves, and it removes what the node rejects. So wherever a next run comes, no member is
rejected.

* `Check.Settles`: the nested nodes and the target of a check leave what they leave alone;
* `Changer.check_settles`: then so does the check;
* `Node.apply_still`: what a mutating run leaves, it leaves alone.
-/

namespace JsonSchema

/-- Every result of a step is trimmed from the value, and a node leaves it alone. -/
def Node.SettledBy (s : Scope) (m : Changes) (k : Node) (q : Site) (v : Json)
    (x : StateT Tally Option Json) : Prop :=
  Leaves x fun w => w.TrimmedFrom v ∧ k.Still s m w q

/-- What the nested nodes and the target of a check leave, they leave alone. -/
structure Check.Settles (s : Scope) (m : Changes) (W : Changer (StateT Tally Option)) (c : Check)
    (p : Site) : Prop where
  unfilled : ∀ k ∈ c.nodesBelow, k.heading.filling? m = none
  here : ∀ k ∈ c.nodesHere, ∀ v, v.distinct → k.SettledBy s m p v (W.visit k v none)
  below : ∀ k ∈ c.nodesBelow, ∀ v seg, v.distinct →
    k.SettledBy s m (p.down seg) v (W.visit k v (some seg))
  reference : ∀ text place, c = .reference text place → ∀ v, v.distinct →
    Leaves (W.reference text place v) fun w => c.Still s m w p
  schemaFormat : ∀ name, c = .schemaFormat name → ∀ v, v.distinct →
    Leaves (W.schemaFormat name v) fun w => c.Still s m w p

section

variable {s : Scope} {m : Changes} {W : Changer (StateT Tally Option)} {c : Check} {v : Json}
  {p : Site}

/-- A check that removes nothing by itself and asks for no target leaves alone what its nested nodes
leave alone. -/
theorem Check.still_of_comes (hstrips : ∀ w, c.strips w = false) (htarget : c.target? = none)
    (h : ∀ k w below, c.Comes v k w below → k.Still s m w (p.at below)) : c.Still s m v p := by
  refine ⟨fun _ => hstrips v, fun k w q hvisit => ?_⟩
  cases hvisit with
  | nested hcomes => exact h k w _ hcomes
  | target hk => rw [htarget] at hk; cases hk

/-- A walk each step of which trims what the walk has: what a step achieves for its own item is
still there at the end, if trimming keeps it. -/
theorem Leaves.trimming {α β : Type} (view : β → Json) {f : β → α → StateT Tally Option β}
    {D : α → β → Prop} {xs : List α} {b : β} (hd : (view b).distinct)
    (mono : ∀ x b c, (view b).distinct → (view c).TrimmedFrom (view b) → D x b → D x c)
    (step : ∀ x ∈ xs, ∀ c, (view c).distinct →
      Leaves (f c x) fun c' => (view c').TrimmedFrom (view c) ∧ D x c') :
    Leaves (xs.foldlM f b) fun c => (view c).TrimmedFrom (view b) ∧ ∀ x ∈ xs, D x c := by
  have hfold := Leaves.foldlM_all (f := f) (R := fun b c => (view c).TrimmedFrom (view b))
    (D := fun x c => (view c).distinct ∧ D x c) (b := b) (fun b => .refl (view b))
    (fun h h' => h'.trans h) (fun x b c hc hb => ⟨hc.distinct hb.1, mono x b c hb.1 hc hb.2⟩)
    fun x hx c hc => (step x hx c (hc.distinct hd)).imp fun c' hc' =>
      ⟨hc'.1, (hc'.1.trans hc).distinct hd, hc'.2⟩
  exact hfold.imp fun c hc => ⟨hc.1, fun x hx => (hc.2 x hx).2⟩

/-! ## Members and items -/

theorem Changer.members_all (ms : Members) {f : String → Json → StateT Tally Option Json}
    {P : String → Json → Prop} (hf : ∀ e ∈ ms, Leaves (f e.1 e.2) (P e.1)) :
    Leaves (W.members f (.object ms)) fun w => ∃ ns, w = .object ns ∧ ∀ e ∈ ns, P e.1 e.2 := by
  refine Leaves.after fun _ => ?_
  have hms : Leaves (ms.mapM fun e => do return (e.1, ← f e.1 e.2))
      (List.Forall₂ (fun _ e => P e.1 e.2) ms) :=
    Leaves.mapM fun e he => (hf e he).map fun w hw => hw
  refine hms.map fun ns hns => ⟨ns, rfl, fun e he => ?_⟩
  obtain ⟨i, hi, rfl⟩ := List.getElem_of_mem he
  exact hns.get (hns.length_eq ▸ hi) hi

theorem Changer.items_all (xs : List Json) {f : Nat → Json → StateT Tally Option Json}
    {P : Nat → Json → Prop} (hf : ∀ x ∈ xs.zipIdx, Leaves (f x.2 x.1) (P x.2)) :
    Leaves (W.items f (.array xs)) fun w =>
      ∃ ys, w = .array ys ∧ ∀ y ∈ ys.zipIdx, P y.2 y.1 := by
  refine Leaves.after fun _ => ?_
  have hxs : Leaves (xs.zipIdx.mapM fun x => f x.2 x.1)
      (List.Forall₂ (fun x y => P x.2 y) xs.zipIdx) := Leaves.mapM hf
  refine hxs.map fun ys hys => ⟨ys, rfl, fun y hy => ?_⟩
  obtain ⟨hi, hy⟩ := List.getElem?_eq_some_iff.1 (List.mem_zipIdx_iff_getElem?.1 hy)
  have hi' : y.2 < xs.zipIdx.length := hys.length_eq ▸ hi
  simpa [hy] using hys.get hi' hi

/-! ## Checks -/

namespace Check.Settles

theorem dependencies {entries : List (String × Dependency)}
    (h : (Check.dependencies entries).Settles s m W p) (hd : v.distinct) :
    Leaves (W.check m (.dependencies entries) v) fun w =>
      (Check.dependencies entries).Still s m w p := by
  have hfold : Leaves (W.check m (.dependencies entries) v) fun w =>
      w.TrimmedFrom v ∧ ∀ e ∈ entries, ∀ k, e.2 = .schema k → (w.get? e.1).isSome →
        k.Still s m w p := by
    refine Leaves.trimming (fun v => v) hd (fun e b c hb hc hk k he hget => ?_) fun e he w hw => ?_
    · exact (hk k he (hc.get?_isSome hget)).trimmed hb hc
    · obtain ⟨name, d⟩ := e
      cases hget : (w.get? name).isSome with
      | false => exact Leaves.pure ⟨.refl w, fun k hk hget' => by simp [hget] at hget'⟩
      | true =>
        cases d with
        | names names place =>
          exact Leaves.after fun _ => Leaves.pure ⟨.refl w, fun k hk => by cases hk⟩
        | schema k =>
          refine (h.here k (List.mem_filterMap.mpr ⟨_, he, rfl⟩) w hw).imp fun x hx => ⟨hx.1, ?_⟩
          rintro k' ⟨⟩ -
          exact hx.2
  refine hfold.imp fun w hw => still_of_comes (fun _ => rfl) rfl fun k x below hx => ?_
  cases hx with
  | dependency he hhas => exact hw.2 _ he k rfl hhas

theorem closed {declared : Declared} {place : Path} (v : Json) :
    Leaves (W.check m (.closed declared place) v) fun w =>
      (Check.closed declared place).Still s m w p := by
  have hvisits : ∀ w k x q, ¬(Check.closed declared place).Visits s w p k x q := by
    intro w k x q hvisit
    cases hvisit with
    | nested hcomes => cases hcomes
    | target hk => cases hk
  cases v with
  | object ms =>
    cases hf : m.filter with
    | true =>
      simp only [Changer.check, hf]
      refine Leaves.pure ⟨fun _ => ?_, fun k x q hvisit => absurd hvisit (hvisits _ k x q)⟩
      rw [strips, List.any_eq_false]
      intro e he
      simp [(List.mem_filter.1 he).2]
    | false =>
      simp only [Changer.check, hf]
      refine Leaves.after fun _ => Leaves.pure ⟨fun hf' => ?_, fun k x q hvisit =>
        absurd hvisit (hvisits _ k x q)⟩
      rw [hf] at hf'
      cases hf'
  | _ =>
    exact Leaves.after fun _ => Leaves.pure ⟨fun _ => rfl, fun k x q hvisit =>
      absurd hvisit (hvisits _ k x q)⟩

theorem additional {declared : Declared} {k : Node}
    (h : (Check.additional declared k).Settles s m W p) (hd : v.distinct) :
    Leaves (W.check m (.additional declared k) v) fun w =>
      (Check.additional declared k).Still s m w p := by
  rw [Changer.check]
  cases v with
  | object ms =>
    have hall := Changer.members_all ms (W := W)
      (f := fun name w => bif declared.has name then pure w else W.visit k w (some (.name name)))
      (P := fun name w => declared.has name = false → k.Still s m w (p.down (.name name)))
      fun e he => by
        cases hdeclared : declared.has e.1 with
        | true => exact Leaves.pure fun h => by cases h
        | false =>
          have hpart := (Json.distinct_object.1 hd).2 e he
          exact (h.below k (by simp [nodesBelow]) e.2 _ hpart).imp fun w hw _ => hw.2
    refine hall.imp fun w hw => still_of_comes (fun _ => rfl) rfl fun j x below hx => ?_
    obtain ⟨ns, rfl, hns⟩ := hw
    cases hx with
    | additional he hdeclared => exact hns _ he hdeclared
  | _ =>
    exact Leaves.pure (still_of_comes (fun _ => rfl) rfl fun j x below hx => by cases hx)

theorem items {k : Node} (h : (Check.items k).Settles s m W p) (hd : v.distinct) :
    Leaves (W.check m (.items k) v) fun w => (Check.items k).Still s m w p := by
  rw [Changer.check]
  cases v with
  | array xs =>
    have hall := Changer.items_all xs (W := W)
      (f := fun i x => W.visit k x (some (.index i)))
      (P := fun i x => k.Still s m x (p.down (.index i))) fun x hx => by
        have hpart := Json.distinct_array.1 hd x.1 (List.fst_mem_of_mem_zipIdx hx)
        exact (h.below k (by simp [nodesBelow]) x.1 _ hpart).imp fun w hw => hw.2
    refine hall.imp fun w hw => still_of_comes (fun _ => rfl) rfl fun j x below hx => ?_
    obtain ⟨ys, rfl, hys⟩ := hw
    cases hx with
    | item hy => exact hys (_, _) (List.mem_zipIdx_iff_getElem?.2 hy)
  | _ =>
    exact Leaves.pure (still_of_comes (fun _ => rfl) rfl fun j x below hx => by cases hx)

theorem additionalItems {limit : Nat} {k : Node}
    (h : (Check.additionalItems limit k).Settles s m W p) (hd : v.distinct) :
    Leaves (W.check m (.additionalItems limit k) v) fun w =>
      (Check.additionalItems limit k).Still s m w p := by
  rw [Changer.check]
  cases v with
  | array xs =>
    have hall := Changer.items_all xs (W := W)
      (f := fun i x => if i < limit then pure x else W.visit k x (some (.index i)))
      (P := fun i x => limit ≤ i → k.Still s m x (p.down (.index i))) fun x hx => by
        split
        · next hi => exact Leaves.pure fun hle => absurd hi (Nat.not_lt.2 hle)
        · have hpart := Json.distinct_array.1 hd x.1 (List.fst_mem_of_mem_zipIdx hx)
          exact (h.below k (by simp [nodesBelow]) x.1 _ hpart).imp fun w hw _ => hw.2
    refine hall.imp fun w hw => still_of_comes (fun _ => rfl) rfl fun j x below hx => ?_
    obtain ⟨ys, rfl, hys⟩ := hw
    cases hx with
    | itemPast hlimit hy => exact hys (_, _) (List.mem_zipIdx_iff_getElem?.2 hy) hlimit
  | _ =>
    exact Leaves.pure (still_of_comes (fun _ => rfl) rfl fun j x below hx => by cases hx)

theorem patternProperties {entries : List (Pattern × Node)}
    (h : (Check.patternProperties entries).Settles s m W p) (hd : v.distinct) :
    Leaves (W.check m (.patternProperties entries) v) fun w =>
      (Check.patternProperties entries).Still s m w p := by
  rw [Changer.check]
  cases v with
  | object ms =>
    have hall := Changer.members_all ms (W := W)
      (f := fun name w => entries.foldlM (fun w e =>
        bif e.1.accepts name then W.visit e.2 w (some (.name name)) else pure w) w)
      (P := fun name w => ∀ f ∈ entries, f.1.accepts name = true →
        f.2.Still s m w (p.down (.name name))) fun e he => by
        have hpart := (Json.distinct_object.1 hd).2 e he
        refine (Leaves.trimming (fun v => v) hpart (fun f b c hb hc hf ha =>
          (hf ha).trimmed hb hc) fun f hf w hw => ?_).imp fun w hw => hw.2
        cases ha : f.1.accepts e.1 with
        | false => exact Leaves.pure ⟨.refl w, fun h => by cases h⟩
        | true =>
          exact (h.below f.2 (List.mem_map_of_mem hf) w _ hw).imp fun x hx => ⟨hx.1, fun _ => hx.2⟩
    refine hall.imp fun w hw => still_of_comes (fun _ => rfl) rfl fun j x below hx => ?_
    obtain ⟨ns, rfl, hns⟩ := hw
    cases hx with
    | pattern hf he ha => exact hns _ he _ hf ha
  | _ =>
    exact Leaves.pure (still_of_comes (fun _ => rfl) rfl fun j x below hx => by cases hx)

theorem allOf {ns : List Node} (h : (Check.allOf ns).Settles s m W p) (hd : v.distinct) :
    Leaves (W.check m (.allOf ns) v) fun w => (Check.allOf ns).Still s m w p := by
  have hfold : Leaves (W.check m (.allOf ns) v) fun w =>
      w.TrimmedFrom v ∧ ∀ k ∈ ns, k.Still s m w p :=
    Leaves.trimming (fun v => v) hd (fun k b c hb hc hk => hk.trimmed hb hc)
      fun k hk w hw => h.here k hk w hw
  refine hfold.imp fun w hw => still_of_comes (fun _ => rfl) rfl fun k x below hx => ?_
  cases hx with
  | member hk => exact hw.2 k hk

theorem tuple {ns : List Node} (h : (Check.tuple ns).Settles s m W p) (hd : v.distinct) :
    Leaves (W.check m (.tuple ns) v) fun w => (Check.tuple ns).Still s m w p := by
  cases v with
  | array xs =>
    have hfold : Leaves (ns.zipIdx.foldlM (fun xs k => W.item m xs k.1 k.2) xs) fun ys =>
        (Json.array ys).TrimmedFrom (.array xs) ∧ ∀ k ∈ ns.zipIdx, ∀ y, ys[k.2]? = some y →
          k.1.Still s m y (p.down (.index k.2)) := by
      refine Leaves.trimming Json.array hd (fun k b c hb hc hk y hy => ?_) fun k hk ys hys => ?_
      · obtain ⟨x, hx, htrim⟩ := hc.getElem? hy
        exact (hk x hx).trimmed (Json.distinct_array.1 hb x (List.mem_of_getElem? hx)) htrim
      · have hmem : k.1 ∈ ns := List.fst_mem_of_mem_zipIdx hk
        rw [Changer.item]
        cases hx : ys[k.2]? with
        | some x =>
          have hpart := Json.distinct_array.1 hys x (List.mem_of_getElem? hx)
          refine (h.below k.1 hmem x _ hpart).map fun z hz =>
            ⟨m.admits_trimming.set hx hz.1, fun y hy => ?_⟩
          obtain ⟨hi, -⟩ := List.getElem?_eq_some_iff.1 hx
          rw [List.getElem?_set_self hi] at hy
          rw [← Option.some.inj hy]
          exact hz.2
        | none =>
          simp only [h.unfilled k.1 hmem, ite_self]
          exact Leaves.after fun _ => Leaves.pure ⟨.refl _, fun y hy => by rw [hx] at hy; cases hy⟩
    refine Leaves.after fun _ => hfold.map fun ys hys => ?_
    refine still_of_comes (fun _ => rfl) rfl fun j x below hx => ?_
    cases hx with
    | tupleItem hk hy => exact hys.2 _ hk x hy
  | _ =>
    exact Leaves.pure (still_of_comes (fun _ => rfl) rfl fun j x below hx => by cases hx)

theorem properties {entries : List (String × Node)} {skipNull : Bool}
    (h : (Check.properties entries skipNull).Settles s m W p) (hd : v.distinct) :
    Leaves (W.check m (.properties entries skipNull) v) fun w =>
      (Check.properties entries skipNull).Still s m w p := by
  cases v with
  | object ms =>
    have hfold : Leaves (entries.foldlM (fun ms e => W.member m ms e.1 e.2) ms) fun ns =>
        (Json.object ns).TrimmedFrom (.object ms) ∧ ∀ e ∈ entries, ∀ y, ns.lookup e.1 = some y →
          e.2.Still s m y (p.down (.name e.1)) := by
      refine Leaves.trimming Json.object hd (fun e b c hb hc he y hy => ?_) fun e he ns hns => ?_
      · obtain ⟨x, hx, htrim⟩ := hc.lookup hy
        exact (he x hx).trimmed ((Json.distinct_object.1 hb).2 _ (mem_of_lookup hx)) htrim
      · have hmem : e.2 ∈ (Check.properties entries skipNull).nodesBelow := List.mem_map_of_mem he
        rw [Changer.member]
        cases hx : ns.lookup e.1 with
        | some x =>
          have hpart := (Json.distinct_object.1 hns).2 _ (mem_of_lookup hx)
          refine (h.below e.2 hmem x _ hpart).map fun z hz =>
            ⟨m.admits_trimming.replace hx hz.1, fun y hy => ?_⟩
          rw [Members.lookup_replace, if_pos rfl, hx] at hy
          rw [← Option.some.inj hy]
          exact hz.2
        | none =>
          simp only [h.unfilled e.2 hmem]
          exact Leaves.after fun _ => Leaves.pure ⟨.refl _, fun y hy => by rw [hx] at hy; cases hy⟩
    refine Leaves.after fun _ => hfold.map fun ns hns => ?_
    refine still_of_comes (fun _ => rfl) rfl fun j x below hx => ?_
    cases hx with
    | property he hy => exact hns.2 _ he x hy
  | _ =>
    exact Leaves.after fun _ => Leaves.pure (still_of_comes (fun _ => rfl) rfl
      fun j x below hx => by cases hx)

end Check.Settles

/-- **What a check leaves, it leaves alone**, if its nested nodes and its target do so. -/
theorem Changer.check_settles (h : c.Settles s m W p) (hd : v.distinct) :
    Leaves (W.check m c v) fun w => c.Still s m w p := by
  cases c with
  | reference text place => exact h.reference text place rfl v hd
  | schemaFormat name => exact h.schemaFormat name rfl v hd
  | dependencies entries => exact h.dependencies hd
  | closed declared place => exact Check.Settles.closed v
  | additional declared k => exact h.additional hd
  | items k => exact h.items hd
  | patternProperties entries => exact h.patternProperties hd
  | allOf ns => exact h.allOf hd
  | tuple ns => exact h.tuple hd
  | properties entries skipNull => exact h.properties hd
  | additionalItems limit k => exact h.additionalItems hd
  | rule | negation | anyOf | oneOf =>
    exact Leaves.after fun _ => Leaves.pure (Check.still_of_comes (fun _ => rfl) rfl
      fun j x below hx => by cases hx)

end

/-! ## Runs -/

section Runs

variable {s : Scope} {m : Changes} {n : Node} {c : Check} {depth : Nat} {p : Site} {h : Heading}

/-- A check whose only visit is to its target is left alone where the target is. -/
theorem Check.still_of_target {v : Json} (hstrips : ∀ w, c.strips w = false)
    (hcomes : ∀ k w below, ¬c.Comes v k w below)
    (ht : ∀ k n, c.target? = some k → s.subroutines.lookup k = some n → k ∉ p.entered →
      n.Still s m v (p.enter k)) : c.Still s m v p := by
  refine ⟨fun _ => hstrips v, fun k w q hvisit => ?_⟩
  cases hvisit with
  | nested hk => exact absurd hk (hcomes k w _)
  | target hk hn he => exact ht _ k hk hn he

theorem Check.reference_settles {text : String} {place : Path}
    (target : ∀ k, s.subroutines.lookup (.reference text) = some k → .reference text ∉ p.entered →
      ∀ v, v.distinct → Leaves (k.apply s m depth v (p.enter (.reference text))) fun w =>
        k.Still s m w (p.enter (.reference text))) {v : Json} (hd : v.distinct) :
    Leaves ((reference text place).apply s m depth h v p) fun w =>
      (reference text place).Still s m w p := by
  intro t w t' ht
  refine still_of_target (fun _ => rfl) (fun _ _ _ h => by cases h) fun k n hk hn he => ?_
  cases hk
  rw [apply_reference, hn] at ht
  simp only [he, if_false] at ht
  obtain ⟨⟨x, inner⟩, hx, hw⟩ := Option.bind_eq_some_iff.mp ht
  cases hw
  exact target n hn he v hd _ _ _ hx

theorem Check.schemaFormat_settles {name : String}
    (target : ∀ k, s.subroutines.lookup (.format name) = some k → .format name ∉ p.entered →
      ∀ v, v.distinct → Leaves (k.apply s m depth v (p.enter (.format name))) fun w =>
        k.Still s m w (p.enter (.format name))) {v : Json} (hd : v.distinct) :
    Leaves ((schemaFormat name).apply s m depth h v p) fun w =>
      (schemaFormat name).Still s m w p := by
  intro t w t' ht
  refine still_of_target (fun _ => rfl) (fun _ _ _ h => by cases h) fun k n hk hn he => ?_
  cases hk
  rw [apply_schemaFormat, hn] at ht
  simp only [he, if_false] at ht
  exact target n hn he v hd _ _ _ ht

/-- A node whose checks leave alone what they leave does so as well: a check that comes later only
trims what an earlier one has left. -/
theorem Node.changing_settles {check : Check → Json → StateT Tally Option Json}
    {missing wrongType : Json → StateT Tally Option Unit} {v : Json} (hd : v.distinct)
    (hc : ∀ c ∈ n.checks, ∀ v, v.distinct →
      Leaves (check c v) fun w => w.TrimmedFrom v ∧ c.Still s m w p) :
    Leaves (n.changing s.greedy check missing wrongType v) fun w => n.Still s m w p := by
  obtain ⟨h, head, tail⟩ := n
  have hrun : ∀ cs : List Check, (∀ c ∈ cs, c ∈ (mk h head tail).checks) → ∀ v, v.distinct →
      Leaves (cs.foldlM (fun v c => check c v) v) fun w =>
        w.TrimmedFrom v ∧ ∀ c ∈ cs, c.Still s m w p := by
    intro cs hcs v hd
    exact Leaves.trimming (fun v => v) hd (fun c v w hv hw hstill => hstill.trimmed hv hw)
      fun c hmem w hw => hc c (hcs c hmem) w hw
  rw [changing]
  split
  · refine (hrun head (fun c => List.mem_append_left tail) v hd).bind fun w hw => ?_
    refine Leaves.after fun _ => ?_
    have hdw := hw.1.distinct hd
    split
    · refine (hrun tail (fun c => List.mem_append_right head) w hdw).imp fun x hx => ?_
      refine still_iff.2 fun c hdue => ?_
      rcases (mem_due_iff.1 hdue).2 with hmem | ⟨hmem, -⟩
      · exact (hw.2 c hmem).trimmed hdw hx.1
      · exact hx.2 c hmem
    · next hmissing =>
      refine Leaves.pure (still_iff.2 fun c hdue => ?_)
      rcases (mem_due_iff.1 hdue).2 with hmem | ⟨-, hdone⟩
      · exact hw.2 c hmem
      · exact absurd hdone hmissing
  · next ht =>
    refine Leaves.after fun _ => Leaves.pure (still_iff.2 fun c hdue => ?_)
    exact absurd (mem_due_iff.1 hdue).1 ht

/-- **What a mutating run leaves, it leaves alone**, if it fills in nothing: wherever a next run
comes, no member is rejected that it would remove. -/
theorem Node.apply_still (hs : ∀ k n, s.subroutines.lookup k = some n → n.Unfilled m)
    (hn : n.Unfilled m) {v : Json} (hd : v.distinct) :
    Leaves (n.apply s m depth v p) fun w => n.Still s m w p := by
  have key : (∀ (n : Node) depth p, n.Unfilled m → ∀ v, v.distinct →
        Leaves (n.apply s m depth v p) fun w => n.Still s m w p) ∧
      ∀ (c : Check) depth p, (∀ k ∈ c.nodes, k.Unfilled m) → ∀ (h : Heading) v, v.distinct →
        Leaves (c.apply s m depth h v p) fun w => w.TrimmedFrom v ∧ c.Still s m w p := by
    apply s.level_induction
    · intro n depth p ih hn v hd
      rw [funext (n.apply_eq s m depth p v)]
      refine Node.changing_settles hd fun c hc w hw => ?_
      rw [← funext (Check.apply_eq s m depth n.heading p c w)]
      exact ih c hc (fun k hk => hn.nested hc hk) n.heading w hw
    · intro c depth p here below target hc h v hd
      have hsettles : c.Settles s m (Check.applying s m depth h p) p := by
        constructor
        case unfilled => exact fun k hk => (hc k (List.mem_append_right _ hk)).heading
        case here =>
          intro k hk v hd t w t' ht
          have hk' := hc k (List.mem_append_left _ hk)
          exact ⟨Node.apply_trims hs hk' v t w t' ht, here k hk hk' v hd t w t' ht⟩
        case below =>
          intro k hk v seg hd t w t' ht
          have hk' := hc k (List.mem_append_right _ hk)
          cases depth with
          | zero => cases ht
          | succ depth =>
            exact ⟨Node.apply_trims hs hk' v t w t' ht,
              below k hk depth (Nat.lt_succ_self _) seg hk' v hd t w t' ht⟩
        case reference =>
          rintro text place rfl v hd
          exact Check.reference_settles (fun k hk he => target _ k rfl hk he (hs _ k hk)) hd
        case schemaFormat =>
          rintro name rfl v hd
          exact Check.schemaFormat_settles (fun k hk he => target _ k rfl hk he (hs _ k hk)) hd
      intro t w t' ht
      refine ⟨Check.apply_trims hs hc h v t w t' ht, ?_⟩
      rw [Check.apply_eq] at ht
      exact Changer.check_settles hsettles hd t w t' ht
  exact key.1 n depth p hn v hd

end Runs

end JsonSchema
