import JsonSchema.Proofs.Filtered
import JsonSchema.Proofs.Resting
import JsonSchema.Proofs.Territories

/-!
# What one check leaves

A check that goes to parts of the value only, with one nested node for each part, has nothing more
to do when it is done: it has removed what it rejects and filled in what is absent, and each part
that it comes to is what the nested node has left.

* `Check.Parting`: a check that goes to parts only, to one node at each;
* `Check.Quiet`: a check has nothing to remove or to fill in, and the parts have a property;
* `Changer.check_quiets`: what a parting check leaves;
* `Check.Quiet.agrees`: changes of other parts do not matter.
-/

namespace JsonSchema

/-- The check comes to parts of the value only, and to one nested node at each. -/
structure Check.Parting (c : Check) : Prop where
  target : c.target? = none
  here : ∀ k, ¬c.Sends k none
  single : ∀ {j k : Node} {seg : Segment}, c.Sends j (some seg) → c.Sends k (some seg) → j = k

theorem Check.Parting.tuple (ns : List Node) : (Check.tuple ns).Parting where
  target := rfl
  here k hk := by cases hk
  single hj hk := by
    cases hj with
    | tupleItem hj =>
      cases hk with
      | tupleItem hk =>
        rw [List.mem_zipIdx_iff_getElem?] at hj hk
        exact Option.some.inj (hj.symm.trans hk)

theorem Check.Parting.properties {entries : List (String × Node)} {skipNull : Bool}
    (hnames : (entries.map Prod.fst).Nodup) : (Check.properties entries skipNull).Parting where
  target := rfl
  here k hk := by cases hk
  single {j k seg} hj hk := by
    cases hj with
    | @property _ _ e he =>
      generalize hseg : Segment.name e.1 = seg at hk
      cases hk with
      | @property _ _ f hf =>
        have he := lookup_eq_some_of_mem hnames he
        rw [Segment.name.inj hseg, lookup_eq_some_of_mem hnames hf] at he
        exact (Option.some.inj he).symm

/-- The check removes nothing and fills in nothing, and what it comes to has a property. -/
structure Check.Quiet (m : Changes) (Q : Node → Segment → Json → Prop) (c : Check) (v : Json) :
    Prop where
  keeps : m.filter = true → c.strips v = false
  full : c.Full m v
  below : ∀ k x seg, c.Comes v k x (some seg) → Q k seg x

/-! ## Walks -/

namespace Leaves

variable {σ α β : Type} {xs : List α} {b : β}

/-- A walk that keeps an invariant: what a step achieves for its own item is still there at the end,
if no step undoes it for any item. -/
theorem foldlM_kept {f : β → α → StateT σ Option β} {I : β → Prop} {D : α → β → Prop} (hb : I b)
    (step : ∀ x ∈ xs, ∀ c, I c →
      Leaves (f c x) fun c' => I c' ∧ D x c' ∧ ∀ y ∈ xs, D y c → D y c') :
    Leaves (xs.foldlM f b) fun c => I c ∧ ∀ x ∈ xs, D x c := by
  have hfold := Leaves.foldlM_all (f := f) (b := b)
    (R := fun b c => I b → I c ∧ ∀ y ∈ xs, D y b → D y c)
    (D := fun x c => I c ∧ (x ∈ xs → D x c)) (fun _ hb => ⟨hb, fun _ _ h => h⟩)
    (fun h h' hb => ⟨(h' (h hb).1).1, fun y hy hD => (h' (h hb).1).2 y hy ((h hb).2 y hy hD)⟩)
    (fun x b c h hb => ⟨(h hb.1).1, fun hx => (h hb.1).2 x hx (hb.2 hx)⟩)
    fun x hx c hc => (step x hx c (hc hb).1).imp fun c' hc' =>
      ⟨fun _ => ⟨hc'.1, hc'.2.2⟩, hc'.1, fun _ => hc'.2.1⟩
  exact hfold.imp fun c hc => ⟨(hc.1 hb).1, fun x hx => (hc.2 x hx).2 hx⟩

/-- A walk over numbered items: what holds before an item, the step takes past the item. -/
theorem foldlM_zipIdx {f : β → α × Nat → StateT σ Option β} {I : Nat → β → Prop}
    (step : ∀ i x, xs[i]? = some x → ∀ b, I i b → Leaves (f b (x, i)) (I (i + 1)))
    (start : I 0 b) : Leaves (xs.zipIdx.foldlM f b) (I xs.length) := by
  have key : ∀ (ys : List α) (i : Nat), xs.drop i = ys → ∀ b, I i b →
      Leaves ((ys.zipIdx i).foldlM f b) (I (i + ys.length)) := by
    intro ys
    induction ys with
    | nil => exact fun i _ b hb => Leaves.pure hb
    | cons y ys ih =>
      intro i hdrop b hb
      have hy : xs[i]? = some y := by
        rw [← List.head?_drop, hdrop]
        rfl
      have hrest : xs.drop (i + 1) = ys := by
        rw [← List.tail_drop, hdrop]
        rfl
      rw [List.zipIdx_cons, List.foldlM_cons, List.length_cons, ← Nat.add_assoc,
        Nat.add_right_comm]
      exact (step i y hy b hb).bind fun c hc => ih (i + 1) hrest c hc
  have hall := key xs 0 rfl b start
  rwa [Nat.zero_add] at hall

end Leaves

/-! ## Checks -/

section

variable {m : Changes} {W : Changer (StateT Tally Option)} {c : Check} {v : Json}
  {Q : Node → Segment → Json → Prop}

/-- The nested nodes of a check leave values of distinct names with a property. -/
structure Check.Quiets (m : Changes) (W : Changer (StateT Tally Option))
    (Q : Node → Segment → Json → Prop) (c : Check) : Prop where
  parting : c.Parting
  fills : ∀ k seg x, c.Fills k seg → k.heading.filling? m = some x → x.distinct
  visit : ∀ k seg, c.Sends k (some seg) → ∀ x, x.distinct →
    Leaves (W.visit k x (some seg)) fun y => y.distinct ∧ Q k seg y

/-- A check that removes nothing, fills in nothing and comes to no part has nothing to do. -/
theorem Check.Quiet.idle (hstrips : c.strips v = false) (hfull : c.Full m v)
    (hcomes : ∀ k x seg, ¬c.Comes v k x (some seg)) : c.Quiet m Q v :=
  ⟨fun _ => hstrips, hfull, fun k x seg hx => absurd hx (hcomes k x seg)⟩

namespace Check.Quiets

theorem closed {declared : Declared} {place : Path} :
    Leaves (W.check m (.closed declared place) v) ((Check.closed declared place).Quiet m Q) := by
  cases v with
  | object ms =>
    cases hf : m.filter with
    | true =>
      simp only [Changer.check, hf]
      refine Leaves.pure (.idle ?_ trivial fun _ _ _ h => by cases h)
      rw [strips, List.any_eq_false]
      intro e he
      simp [(List.mem_filter.1 he).2]
    | false =>
      simp only [Changer.check, hf]
      refine Leaves.after fun _ => Leaves.pure ⟨fun hf' => ?_, trivial, fun _ _ _ h => by cases h⟩
      rw [hf] at hf'
      cases hf'
  | _ => exact Leaves.after fun _ => Leaves.pure (.idle rfl trivial fun _ _ _ h => by cases h)

theorem additional {declared : Declared} {k : Node}
    (h : (Check.additional declared k).Quiets m W Q) (hd : v.distinct) :
    Leaves (W.check m (.additional declared k) v) ((Check.additional declared k).Quiet m Q) := by
  rw [Changer.check]
  cases v with
  | object ms =>
    have hall := Changer.members_all ms (W := W)
      (f := fun name w => bif declared.has name then pure w else W.visit k w (some (.name name)))
      (P := fun name w => declared.has name = false → Q k (.name name) w) fun e he => by
        cases hdeclared : declared.has e.1 with
        | true => exact Leaves.pure fun h => by cases h
        | false =>
          have hpart := (Json.distinct_object.1 hd).2 e he
          exact (h.visit k _ (.additional hdeclared) e.2 hpart).imp fun w hw _ => hw.2
    refine hall.imp fun w hw => ⟨fun _ => rfl, trivial, fun j x seg hx => ?_⟩
    obtain ⟨ns, rfl, hns⟩ := hw
    cases hx with
    | additional he hdeclared => exact hns _ he hdeclared
  | _ => exact Leaves.pure (.idle rfl trivial fun _ _ _ h => by cases h)

theorem items {k : Node} (h : (Check.items k).Quiets m W Q) (hd : v.distinct) :
    Leaves (W.check m (.items k) v) ((Check.items k).Quiet m Q) := by
  rw [Changer.check]
  cases v with
  | array xs =>
    have hall := Changer.items_all xs (W := W) (f := fun i x => W.visit k x (some (.index i)))
      (P := fun i x => Q k (.index i) x) fun x hx => by
        have hpart := Json.distinct_array.1 hd x.1 (List.fst_mem_of_mem_zipIdx hx)
        exact (h.visit k _ .item x.1 hpart).imp fun w hw => hw.2
    refine hall.imp fun w hw => ⟨fun _ => rfl, trivial, fun j x seg hx => ?_⟩
    obtain ⟨ys, rfl, hys⟩ := hw
    cases hx with
    | item hy => exact hys (_, _) (List.mem_zipIdx_iff_getElem?.2 hy)
  | _ => exact Leaves.pure (.idle rfl trivial fun _ _ _ h => by cases h)

theorem additionalItems {limit : Nat} {k : Node}
    (h : (Check.additionalItems limit k).Quiets m W Q) (hd : v.distinct) :
    Leaves (W.check m (.additionalItems limit k) v)
      ((Check.additionalItems limit k).Quiet m Q) := by
  rw [Changer.check]
  cases v with
  | array xs =>
    have hall := Changer.items_all xs (W := W)
      (f := fun i x => if i < limit then pure x else W.visit k x (some (.index i)))
      (P := fun i x => limit ≤ i → Q k (.index i) x) fun x hx => by
        split
        · next hi => exact Leaves.pure fun hle => absurd hi (Nat.not_lt.2 hle)
        · next hi =>
          have hpart := Json.distinct_array.1 hd x.1 (List.fst_mem_of_mem_zipIdx hx)
          exact (h.visit k _ (.itemPast (Nat.not_lt.1 hi)) x.1 hpart).imp fun w hw _ => hw.2
    refine hall.imp fun w hw => ⟨fun _ => rfl, trivial, fun j x seg hx => ?_⟩
    obtain ⟨ys, rfl, hys⟩ := hw
    cases hx with
    | itemPast hlimit hy => exact hys (_, _) (List.mem_zipIdx_iff_getElem?.2 hy) hlimit
  | _ => exact Leaves.pure (.idle rfl trivial fun _ _ _ h => by cases h)

/-- All patterns that accept one name have the same node, so what the last of them leaves has the
property for all. -/
theorem patternProperties {entries : List (Pattern × Node)}
    (h : (Check.patternProperties entries).Quiets m W Q) (hd : v.distinct) :
    Leaves (W.check m (.patternProperties entries) v)
      ((Check.patternProperties entries).Quiet m Q) := by
  rw [Changer.check]
  cases v with
  | object ms =>
    have hall := Changer.members_all ms (W := W)
      (f := fun name w => entries.foldlM (fun w e =>
        bif e.1.accepts name then W.visit e.2 w (some (.name name)) else pure w) w)
      (P := fun name w => ∀ f ∈ entries, f.1.accepts name = true → Q f.2 (.name name) w)
      fun e he => by
        have hpart := (Json.distinct_object.1 hd).2 e he
        refine (Leaves.foldlM_kept (I := fun x => x.distinct) hpart fun f hf x hx => ?_).imp
          fun w hw => hw.2
        cases ha : f.1.accepts e.1 with
        | false => exact Leaves.pure ⟨hx, (fun h => by cases h), fun _ _ h => h⟩
        | true =>
          have hsends := Check.Sends.pattern hf ha
          refine (h.visit f.2 _ hsends x hx).imp fun y hy => ⟨hy.1, fun _ => hy.2, ?_⟩
          intro g hg _ hag
          rw [h.parting.single (.pattern hg hag) hsends]
          exact hy.2
    refine hall.imp fun w hw => ⟨fun _ => rfl, trivial, fun j x seg hx => ?_⟩
    obtain ⟨ns, rfl, hns⟩ := hw
    cases hx with
    | pattern hf he ha => exact hns _ he _ hf ha
  | _ => exact Leaves.pure (.idle rfl trivial fun _ _ _ h => by cases h)

/-! ### Tuples -/

/-- What a walk over a tuple has done before it comes to a place: the items below the place are what
their nodes have left, and an array that ends below it ends where no default is filled in. -/
structure Before (m : Changes) (Q : Node → Segment → Json → Prop) (ns : List Node) (i : Nat)
    (xs : List Json) : Prop where
  distinct : (Json.array xs).distinct
  items : ∀ j < i, ∀ k x, ns[j]? = some k → xs[j]? = some x → Q k (.index j) x
  full : xs.length < i → ∀ k, ns[xs.length]? = some k → k.heading.filling? m = none

/-- One more item, the earlier ones being the same. -/
theorem Before.items_succ {ns : List Node} {i : Nat} {k : Node} {xs ys : List Json}
    (h : Before m Q ns i xs) (hk : ns[i]? = some k) (hsame : ∀ j < i, ys[j]? = xs[j]?)
    (hy : ∀ y, ys[i]? = some y → Q k (.index i) y) :
    ∀ j < i + 1, ∀ k x, ns[j]? = some k → ys[j]? = some x → Q k (.index j) x := by
  intro j hj k' x hk' hx
  rcases Nat.lt_succ_iff_lt_or_eq.1 hj with hlt | rfl
  · exact h.items j hlt k' x hk' (hsame j hlt ▸ hx)
  · cases hk.symm.trans hk'
    exact hy x hx

theorem item {ns : List Node} (h : (Check.tuple ns).Quiets m W Q) {i : Nat} {k : Node}
    (hk : ns[i]? = some k) {xs : List Json} (hxs : Before m Q ns i xs) :
    Leaves (W.item m xs k i) (Before m Q ns (i + 1)) := by
  have hadmits := Check.admits_distinct h.fills
  have hfills : (Check.tuple ns).Fills k (.index i) :=
    .item (List.mem_zipIdx_iff_getElem?.2 hk)
  rw [Changer.item]
  cases hx : xs[i]? with
  | some x =>
    obtain ⟨hi, -⟩ := List.getElem?_eq_some_iff.1 hx
    have hpart := Json.distinct_array.1 hxs.distinct x (List.mem_of_getElem? hx)
    refine (h.visit k _ hfills.sends x hpart).map fun z hz => ?_
    have hset : ∀ y, (xs.set i z)[i]? = some y → Q k (.index i) y := by
      intro y hy
      rw [List.getElem?_set_self hi] at hy
      exact Option.some.inj hy ▸ hz.2
    refine ⟨hadmits.set hx (fun _ => hz.1) hxs.distinct,
      hxs.items_succ hk (fun j hj => List.getElem?_set_ne hj.ne') hset, fun hlt => ?_⟩
    rw [List.length_set] at hlt
    omega
  | none =>
    have hlength := List.getElem?_eq_none_iff.1 hx
    have hsame : ∀ y, xs[i]? = some y → Q k (.index i) y := by
      rw [hx]
      intro y hy
      cases hy
    cases hfill : (if xs.length = i then k.heading.filling? m else none) with
    | some x =>
      split at hfill
      · next hi =>
        subst hi
        refine (h.visit k _ hfills.sends x (h.fills k _ x hfills hfill)).map fun z hz => ?_
        have hlast : ∀ y, (xs ++ [z])[xs.length]? = some y → Q k (.index xs.length) y := by
          intro y hy
          rw [List.getElem?_concat_length] at hy
          exact Option.some.inj hy ▸ hz.2
        refine ⟨hadmits.append hfills hfill (fun _ => hz.1) hxs.distinct,
          hxs.items_succ hk (fun j hj => List.getElem?_append_left hj) hlast, fun hlt => ?_⟩
        rw [List.length_append, List.length_singleton] at hlt
        omega
      · cases hfill
    | none =>
      refine Leaves.after fun _ => Leaves.pure
        ⟨hxs.distinct, hxs.items_succ hk (fun _ _ => rfl) hsame, fun _ k' hk' => ?_⟩
      split at hfill
      · next hi =>
        rw [hi, hk] at hk'
        cases hk'
        exact hfill
      · exact hxs.full (by omega) k' hk'

theorem tuple {ns : List Node} (h : (Check.tuple ns).Quiets m W Q) (hd : v.distinct) :
    Leaves (W.check m (.tuple ns) v) ((Check.tuple ns).Quiet m Q) := by
  cases v with
  | array xs =>
    have hstart : Before m Q ns 0 xs :=
      ⟨hd, fun _ hj => absurd hj (Nat.not_lt_zero _), fun hlt => absurd hlt (Nat.not_lt_zero _)⟩
    have hfold := Leaves.foldlM_zipIdx (f := fun xs k => W.item m xs k.1 k.2)
      (fun i k hk ys hys => h.item hk hys) hstart
    refine Leaves.after fun _ => hfold.map fun ys hys => ⟨fun _ => rfl, fun k hk => ?_,
      fun k x seg hx => ?_⟩
    · exact hys.full (List.getElem?_eq_some_iff.1 hk).1 k hk
    · cases hx with
      | tupleItem hk hx =>
        have hk := List.mem_zipIdx_iff_getElem?.1 hk
        exact hys.items _ (List.getElem?_eq_some_iff.1 hk).1 k x hk hx
  | _ => exact Leaves.pure (.idle rfl trivial fun _ _ _ h => by cases h)

/-! ### Declared members -/

/-- The member that an entry declares is what its node has left, or it is absent and not filled in.
-/
def Settled (m : Changes) (Q : Node → Segment → Json → Prop) (e : String × Node) (ms : Members) :
    Prop :=
  (∀ x, ms.lookup e.1 = some x → Q e.2 (.name e.1) x) ∧
    (ms.lookup e.1 = none → e.2.heading.filling? m = none)

theorem member {entries : List (String × Node)} {skipNull : Bool}
    (h : (Check.properties entries skipNull).Quiets m W Q) {e : String × Node} (he : e ∈ entries)
    {ms : Members} (hms : (Json.object ms).distinct) :
    Leaves (W.member m ms e.1 e.2) fun ns => (Json.object ns).distinct ∧ Settled m Q e ns ∧
      ∀ name, name ≠ e.1 → ns.lookup name = ms.lookup name := by
  have hadmits := Check.admits_distinct h.fills
  have hfills : (Check.properties entries skipNull).Fills e.2 (.name e.1) := .member he
  rw [Changer.member]
  cases hx : ms.lookup e.1 with
  | some x =>
    have hpart := (Json.distinct_object.1 hms).2 _ (mem_of_lookup hx)
    refine (h.visit e.2 _ hfills.sends x hpart).map fun z hz => ?_
    refine ⟨hadmits.replace hx (fun _ => hz.1) hms, ?_, fun name hname => ?_⟩
    · rw [Settled, Members.lookup_replace, if_pos rfl, hx]
      exact ⟨fun y hy => Option.some.inj hy ▸ hz.2, fun h => by cases h⟩
    · rw [Members.lookup_replace, if_neg hname]
  | none =>
    cases hfill : e.2.heading.filling? m with
    | some x =>
      refine (h.visit e.2 _ hfills.sends x (h.fills _ _ x hfills hfill)).map fun z hz => ?_
      refine ⟨hadmits.add hfills hx hfill (fun _ => hz.1) hms, ?_, fun name hname => ?_⟩
      · rw [Settled, List.lookup_append, hx, Option.none_or, List.lookup_cons, beq_self_eq_true]
        exact ⟨fun y hy => Option.some.inj hy ▸ hz.2, fun h => by cases h⟩
      · rw [List.lookup_append, List.lookup_cons, beq_eq_false_iff_ne.2 hname, List.lookup_nil,
          Option.or_none]
    | none =>
      refine Leaves.after fun _ => Leaves.pure ⟨hms, ?_, fun _ _ => rfl⟩
      rw [Settled, hx]
      exact ⟨(fun _ h => by cases h), fun _ => hfill⟩

/-- Entries of one name have the same node, and other entries look at other members. -/
theorem properties {entries : List (String × Node)} {skipNull : Bool}
    (h : (Check.properties entries skipNull).Quiets m W Q) (hd : v.distinct) :
    Leaves (W.check m (.properties entries skipNull) v)
      ((Check.properties entries skipNull).Quiet m Q) := by
  cases v with
  | object ms =>
    have hfold : Leaves (entries.foldlM (fun ms e => W.member m ms e.1 e.2) ms) fun ns =>
        (Json.object ns).distinct ∧ ∀ e ∈ entries, Settled m Q e ns := by
      refine Leaves.foldlM_kept hd fun e he ns hns => (h.member he hns).imp fun ls hls =>
        ⟨hls.1, hls.2.1, fun f hf hsettled => ?_⟩
      by_cases hname : f.1 = e.1
      · have hnode : f.2 = e.2 :=
          h.parting.single (.property hf) (hname ▸ .property he)
        rw [Settled, hname, hnode]
        exact hls.2.1
      · rwa [Settled, hls.2.2 f.1 hname]
    refine Leaves.after fun _ => hfold.map fun ns hns => ⟨fun _ => rfl, fun e he hnone => ?_,
      fun k x seg hx => ?_⟩
    · exact (hns.2 e he).2 hnone
    · cases hx with
      | property he hx => exact (hns.2 _ he).1 x hx
  | _ => exact Leaves.after fun _ => Leaves.pure (.idle rfl trivial fun _ _ _ h => by cases h)

end Check.Quiets

/-- **A parting check has nothing more to do on what it leaves**, and what it comes to there is what
the nested nodes have left. -/
theorem Changer.check_quiets (h : c.Quiets m W Q) (hd : v.distinct) :
    Leaves (W.check m c v) (c.Quiet m Q) := by
  cases c with
  | reference | schemaFormat => cases h.parting.target
  | closed declared place => exact Check.Quiets.closed
  | additional declared k => exact h.additional hd
  | items k => exact h.items hd
  | patternProperties entries => exact h.patternProperties hd
  | tuple ns => exact h.tuple hd
  | properties entries skipNull => exact h.properties hd
  | additionalItems limit k => exact h.additionalItems hd
  | dependencies | allOf | rule | negation | anyOf | oneOf =>
    exact fun _ _ _ _ => .idle rfl (by trivial) fun _ _ _ h => by cases h

/-! ## Changes of other parts -/

theorem Check.Quiet.keeps_agrees {w : Json} (h : c.Quiet m Q v) (hagree : v.AgreesOn c.Covers w)
    (hf : m.filter = true) : c.strips w = false := by
  cases c with
  | closed declared place =>
    cases hagree.kind with
    | refl => exact h.keeps hf
    | array => rfl
    | object ms ns =>
      have hkeeps := h.keeps hf
      rw [strips, List.any_eq_false] at hkeeps ⊢
      intro e he hrejected
      have hcovers : (closed declared place).Covers (.name e.1) :=
        .rejected (by simpa using hrejected)
      have hlookup : (ms.lookup e.1).isSome := by
        rw [← show ns.lookup e.1 = ms.lookup e.1 from hagree.child _ hcovers,
          Members.lookup_isSome_iff]
        exact List.mem_map_of_mem he
      obtain ⟨x, hx⟩ := Option.isSome_iff_exists.1 hlookup
      exact hkeeps _ (mem_of_lookup hx) hrejected
  | _ => rfl

theorem Check.Quiet.full_agrees {w : Json} (h : c.Quiet m Q v) (hagree : v.AgreesOn c.Covers w) :
    c.Full m w := by
  cases c with
  | tuple ns =>
    cases hagree.kind with
    | refl => exact h.full
    | object => trivial
    | array xs ys =>
      intro k hk
      obtain ⟨hlt, -⟩ := List.getElem?_eq_some_iff.1 hk
      have hsame : ∀ i < ns.length, ys[i]? = xs[i]? := fun i hi =>
        hagree.child (.index i) (.sent (.tupleItem
          (List.mem_zipIdx_iff_getElem?.2 (List.getElem?_eq_getElem hi))))
      -- all places up to the end of the second array are places of the tuple
      have hle : xs.length ≤ ys.length := by
        rw [← List.getElem?_eq_none_iff, ← hsame _ hlt]
        exact List.getElem?_eq_none le_rfl
      have hge : ys.length ≤ xs.length := by
        by_contra hgt
        have hnone := hsame xs.length (by omega)
        rw [List.getElem?_eq_none le_rfl, List.getElem?_eq_none_iff] at hnone
        omega
      exact h.full k (le_antisymm hle hge ▸ hk)
  | properties entries skipNull =>
    cases hagree.kind with
    | refl => exact h.full
    | array => trivial
    | object ms ns =>
      intro e he hnone
      have hsame : ns.lookup e.1 = ms.lookup e.1 := hagree.child (.name e.1) (.sent (.property he))
      exact h.full e he (hsame.symm.trans hnone)
  | _ => trivial

/-- **Changes of parts that a check does not cover do not matter to it.** -/
theorem Check.Quiet.agrees {w : Json} (h : c.Quiet m Q v) (hagree : v.AgreesOn c.Covers w)
    (hw : w.distinct) : c.Quiet m Q w where
  keeps := h.keeps_agrees hagree
  full := h.full_agrees hagree
  below k x seg hx := by
    have hchild := hx.child? hw
    rw [hagree.child seg (.sent hx.sends)] at hchild
    exact h.below k x seg (hx.sends.comes hchild)

end

end JsonSchema
