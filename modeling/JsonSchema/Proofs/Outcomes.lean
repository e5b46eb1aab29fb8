import JsonSchema.Proofs.Changer
import JsonSchema.Proofs.Unfilled

/-!
# What mutating runs leave

A mutating run changes members and items in place, removes members, and adds defaults. What these
steps may do to a value, and what may be done one after the other, the whole run may do.

* `Leaves`: what a step leaves, if it ends, has a property;
* `Changes.Admits`, `Check.Admits`: the single changes of a run, or of a check, keep to a relation;
* `Changer.check_leaves`: so do the checks, whatever state they hand on;
* `Scope.Keeps.apply_leaves`: so do mutating runs, with a relation for each path;
* `Node.apply_leaves`: so do mutating runs, with one relation for all values.
-/

namespace JsonSchema

/-! ## Steps -/

section Steps

variable {σ α β : Type}

/-- Every result of a step has a property. -/
def Leaves (x : StateT σ Option α) (P : α → Prop) : Prop := ∀ t a t', x t = some (a, t') → P a

namespace Leaves

variable {x : StateT σ Option α} {P P' : α → Prop} {Q : β → Prop}

theorem pure {a : α} (h : P a) : Leaves (Pure.pure a : StateT σ Option α) P := by
  intro t b t' ht
  cases ht
  exact h

theorem imp (hx : Leaves x P) (h : ∀ a, P a → P' a) : Leaves x P' :=
  fun t a t' ht => h a (hx t a t' ht)

theorem bind {f : α → StateT σ Option β} (hx : Leaves x P) (hf : ∀ a, P a → Leaves (f a) Q) :
    Leaves (x >>= f) Q := by
  intro t b t' ht
  obtain ⟨⟨a, u⟩, ha, hb⟩ := Option.bind_eq_some_iff.mp ht
  exact hf a (hx t a u ha) u b t' hb

/-- What comes before a step does not matter where the step leaves the property in any case. -/
theorem after {f : α → StateT σ Option β} (hf : ∀ a, Leaves (f a) Q) : Leaves (x >>= f) Q :=
  bind (P := fun _ => True) (fun _ _ _ _ => True.intro) fun a _ => hf a

theorem map {f : α → β} (hx : Leaves x P) (h : ∀ a, P a → Q (f a)) :
    Leaves (do return f (← x)) Q :=
  hx.bind fun a ha => Leaves.pure (h a ha)

theorem mapM {f : α → StateT σ Option β} {R : α → β → Prop} {xs : List α}
    (h : ∀ x ∈ xs, Leaves (f x) (R x)) : Leaves (xs.mapM f) (List.Forall₂ R xs) := by
  induction xs with
  | nil => exact Leaves.pure .nil
  | cons x xs ih =>
    rw [List.mapM_cons]
    refine (h x List.mem_cons_self).bind fun y hy => ?_
    refine (ih fun z hz => h z (List.mem_cons_of_mem x hz)).bind fun ys hys => ?_
    exact Leaves.pure (.cons hy hys)

/-- What every step of a walk does, and what it leaves for each of its items to the end. -/
theorem foldlM_all {f : β → α → StateT σ Option β} {R : β → β → Prop} {D : α → β → Prop}
    (refl : ∀ b, R b b) (trans : ∀ {a b c}, R a b → R b c → R a c)
    (mono : ∀ x b c, R b c → D x b → D x c) {xs : List α} {b : β}
    (step : ∀ x ∈ xs, ∀ c, R b c → Leaves (f c x) fun c' => R c c' ∧ D x c') :
    Leaves (xs.foldlM f b) fun c => R b c ∧ ∀ x ∈ xs, D x c := by
  induction xs generalizing b with
  | nil => exact Leaves.pure ⟨refl b, List.forall_mem_nil _⟩
  | cons x xs ih =>
    rw [List.foldlM_cons]
    refine (step x List.mem_cons_self b (refl b)).bind fun c hc => ?_
    have hrest := ih fun y hy d hd => step y (List.mem_cons_of_mem x hy) d (trans hc.1 hd)
    refine hrest.imp fun d hd => ⟨trans hc.1 hd.1, ?_⟩
    exact List.forall_mem_cons.mpr ⟨mono x c d hd.1 hc.2, hd.2⟩

theorem foldlM {f : β → α → StateT σ Option β} {R : β → β → Prop} (refl : ∀ b, R b b)
    (trans : ∀ {a b c}, R a b → R b c → R a c) {xs : List α}
    (step : ∀ x ∈ xs, ∀ c, Leaves (f c x) (R c)) (b : β) : Leaves (xs.foldlM f b) (R b) := by
  have h := foldlM_all (D := fun _ _ => True) refl trans (fun _ _ _ _ _ => trivial) (b := b)
    fun x hx c _ => (step x hx c).imp fun _ hc => ⟨hc, trivial⟩
  exact h.imp fun _ hc => hc.1

end Leaves

end Steps

/-! ## Steps that keep to a relation -/

/-- All defaults that a run of the node may fill in are of a certain kind. -/
def Node.FillsIn (m : Changes) (F : Json → Prop) (n : Node) : Prop :=
  ∀ k : Node, k.Within n → ∀ v, k.heading.filling? m = some v → F v

theorem Node.FillsIn.nested {m : Changes} {F : Json → Prop} {n : Node} (h : n.FillsIn m F)
    {c : Check} (hc : c ∈ n.checks) {k : Node} (hk : k ∈ c.nodes) : k.FillsIn m F :=
  fun j hj => h j (.step hc hk hj)

theorem Node.Unfilled.fillsIn {m : Changes} {n : Node} (h : n.Unfilled m) :
    n.FillsIn m fun _ => False := by
  intro k hk v hv
  rw [h k hk] at hv
  cases hv

/-- What a run with the given changes and defaults does to a value in one step, it may do. -/
structure Changes.Admits (m : Changes) (F : Json → Prop) (R : Json → Json → Prop) : Prop where
  refl : ∀ v, R v v
  trans : ∀ {u v w}, R u v → R v w → R u w
  items : ∀ {xs ys}, List.Forall₂ R xs ys → R (.array xs) (.array ys)
  members : ∀ {ms ns : Members}, List.Forall₂ (fun e f => e.1 = f.1 ∧ R e.2 f.2) ms ns →
    R (.object ms) (.object ns)
  replace : ∀ {ms : Members} {name : String} {v w : Json}, ms.lookup name = some v → R v w →
    R (.object ms) (.object (ms.replace name w))
  strip : m.filter = true → ∀ (declared : Declared) (ms : Members),
    R (.object ms) (.object (ms.filter fun e => declared.has e.1))
  append : ∀ (xs : List Json) {v w : Json}, F v → R v w → R (.array xs) (.array (xs ++ [w]))
  add : ∀ {ms : Members} {name : String} {v w : Json}, ms.lookup name = none → F v → R v w →
    R (.object ms) (.object (ms ++ [(name, w)]))

/-- What a check does to a value in one step, it may do, if what the nested nodes do to the part at
a segment may be done there. -/
structure Check.Admits (m : Changes) (c : Check) (R : Json → Json → Prop)
    (P : Segment → Json → Json → Prop) : Prop where
  refl : ∀ v, R v v
  trans : ∀ {u v w}, R u v → R v w → R u w
  partRefl : ∀ seg x, P seg x x
  partTrans : ∀ {seg x y z}, P seg x y → P seg y z → P seg x z
  items : ∀ {xs ys}, List.Forall₂ (fun x y => P (.index x.2) x.1 y) xs.zipIdx ys →
    R (.array xs) (.array ys)
  members : ∀ {ms ns : Members}, List.Forall₂ (fun e f => e.1 = f.1 ∧ P (.name e.1) e.2 f.2) ms ns →
    R (.object ms) (.object ns)
  replace : ∀ {ms : Members} {name : String} {x y : Json}, ms.lookup name = some x →
    P (.name name) x y → R (.object ms) (.object (ms.replace name y))
  strip : ∀ declared place, c = .closed declared place → m.filter = true → ∀ ms : Members,
    R (.object ms) (.object (ms.filter fun e => declared.has e.1))
  append : ∀ {xs : List Json} {k : Node} {x y : Json}, c.Fills k (.index xs.length) →
    k.heading.filling? m = some x → P (.index xs.length) x y → R (.array xs) (.array (xs ++ [y]))
  add : ∀ {ms : Members} {name : String} {k : Node} {x y : Json}, c.Fills k (.name name) →
    ms.lookup name = none → k.heading.filling? m = some x → P (.name name) x y →
    R (.object ms) (.object (ms ++ [(name, y)]))

/-- A relation that does not ask where a value stands. -/
theorem Changes.Admits.check {m : Changes} {F : Json → Prop} {R : Json → Json → Prop}
    (hR : m.Admits F R) {c : Check}
    (fills : ∀ k ∈ c.nodesBelow, ∀ v, k.heading.filling? m = some v → F v) :
    c.Admits m R fun _ => R where
  refl := hR.refl
  trans := hR.trans
  partRefl _ := hR.refl
  partTrans := hR.trans
  items h := by
    have hitems := List.forall₂_map_left_iff (f := Prod.fst).mpr h
    rw [List.zipIdx_map_fst] at hitems
    exact hR.items hitems
  members := hR.members
  replace := hR.replace
  strip declared _ _ hf := hR.strip hf declared
  append hk hx h := hR.append _ (fills _ hk.sends.mem_below _ hx) h
  add hk hnone hx h := hR.add hnone (fills _ hk.sends.mem_below _ hx) h

theorem forall₂_zipIdx_set {Q : Nat → Json → Json → Prop} (hQ : ∀ i x, Q i x x) {xs : List Json}
    {i : Nat} {x y : Json} (hi : xs[i]? = some x) (h : Q i x y) :
    List.Forall₂ (fun x y => Q x.2 x.1 y) xs.zipIdx (xs.set i y) := by
  refine List.forall₂_iff_get.2 ⟨by simp, fun j hj hj' => ?_⟩
  simp only [List.get_eq_getElem, List.getElem_zipIdx, Nat.zero_add, List.getElem_set]
  split
  · next hij =>
    subst hij
    obtain ⟨hlt, rfl⟩ := List.getElem?_eq_some_iff.1 hi
    exact h
  · exact hQ j _

theorem Check.Admits.set {m : Changes} {c : Check} {R : Json → Json → Prop}
    {P : Segment → Json → Json → Prop} (hR : c.Admits m R P) {xs : List Json} {i : Nat}
    {x y : Json} (hi : xs[i]? = some x) (h : P (.index i) x y) :
    R (.array xs) (.array (xs.set i y)) :=
  hR.items (forall₂_zipIdx_set (Q := fun i => P (.index i)) (fun _ => hR.partRefl _) hi h)

theorem Changes.Admits.set {m : Changes} {F : Json → Prop} {R : Json → Json → Prop}
    (hR : m.Admits F R) {xs : List Json} {i : Nat} {v w : Json} (hi : xs[i]? = some v)
    (h : R v w) : R (.array xs) (.array (xs.set i w)) := by
  have hcheck : (Check.allOf []).Admits m R fun _ => R := hR.check (List.forall_mem_nil _)
  exact hcheck.set hi h

/-! ## Checks -/

section Checks

variable {σ : Type} {m : Changes} {R : Json → Json → Prop} {P : Segment → Json → Json → Prop}
  {W : Changer (StateT σ Option)} {c : Check}

theorem Changer.looking_leaves (hR : c.Admits m R P) (v : Json) :
    Leaves (W.looking c v) (R v) :=
  Leaves.after fun _ => Leaves.pure (hR.refl v)

theorem Changer.members_leaves (hR : c.Admits m R P) {f : String → Json → StateT σ Option Json}
    (hf : ∀ name x, Leaves (f name x) (P (.name name) x)) (v : Json) :
    Leaves (W.members f v) (R v) := by
  cases v with
  | object ms =>
    refine Leaves.after fun _ => ?_
    have hms : Leaves (ms.mapM fun e => do return (e.1, ← f e.1 e.2))
        (List.Forall₂ (fun e e' => e.1 = e'.1 ∧ P (.name e.1) e.2 e'.2) ms) :=
      Leaves.mapM fun e _ => (hf e.1 e.2).map fun w hw => ⟨rfl, hw⟩
    exact hms.map fun ns hns => hR.members hns
  | _ => exact Leaves.pure (hR.refl _)

theorem Changer.items_leaves (hR : c.Admits m R P) {f : Nat → Json → StateT σ Option Json}
    (hf : ∀ i x, Leaves (f i x) (P (.index i) x)) (v : Json) : Leaves (W.items f v) (R v) := by
  cases v with
  | array xs =>
    refine Leaves.after fun _ => ?_
    have hxs : Leaves (xs.zipIdx.mapM fun x => f x.2 x.1)
        (List.Forall₂ (fun x y => P (.index x.2) x.1 y) xs.zipIdx) :=
      Leaves.mapM fun x _ => hf x.2 x.1
    exact hxs.map fun ys hys => hR.items hys
  | _ => exact Leaves.pure (hR.refl _)

/-- Fill in or change one item. -/
theorem Changer.item_leaves (hR : c.Admits m R P) {k : Node} {i : Nat}
    (hk : c.Fills k (.index i))
    (hvisit : ∀ x, Leaves (W.visit k x (some (.index i))) (P (.index i) x)) (xs : List Json) :
    Leaves (W.item m xs k i) fun ys => R (.array xs) (.array ys) := by
  rw [Changer.item]
  split
  · next x hx => exact (hvisit x).map fun y hy => hR.set hx hy
  · split
    · next x hx =>
      split at hx
      · next hlength =>
        subst hlength
        exact (hvisit x).map fun y hy => hR.append hk hx hy
      · cases hx
    · exact Leaves.after fun _ => Leaves.pure (hR.refl _)

theorem Changer.member_leaves (hR : c.Admits m R P) {k : Node} {name : String}
    (hk : c.Fills k (.name name))
    (hvisit : ∀ x, Leaves (W.visit k x (some (.name name))) (P (.name name) x)) (ms : Members) :
    Leaves (W.member m ms name k) fun ns => R (.object ms) (.object ns) := by
  rw [Changer.member]
  split
  · next w hw => exact (hvisit w).map fun x hx => hR.replace hw hx
  · next hnone =>
    split
    · next w hw => exact (hvisit w).map fun x hx => hR.add hk hnone hw hx
    · exact Leaves.after fun _ => Leaves.pure (hR.refl _)

/-- **What a check makes of a value keeps to a relation** that its nested nodes, its target and the
single changes keep to. -/
theorem Changer.check_leaves (hR : c.Admits m R P)
    (here : ∀ k, c.Sends k none → ∀ v, Leaves (W.visit k v none) (R v))
    (below : ∀ k seg, c.Sends k (some seg) → ∀ x, Leaves (W.visit k x (some seg)) (P seg x))
    (reference : ∀ text place, c = .reference text place → ∀ v,
      Leaves (W.reference text place v) (R v))
    (schemaFormat : ∀ name, c = .schemaFormat name → ∀ v, Leaves (W.schemaFormat name v) (R v))
    (v : Json) : Leaves (W.check m c v) (R v) := by
  cases c with
  | reference text place => exact reference text place rfl v
  | schemaFormat name => exact schemaFormat name rfl v
  | dependencies entries =>
    refine Leaves.foldlM hR.refl hR.trans (fun e he v => ?_) v
    cases (v.get? e.1).isSome with
    | false => exact Leaves.pure (hR.refl v)
    | true =>
      obtain ⟨name, d⟩ := e
      cases d with
      | names names place =>
        exact Leaves.after fun _ => Leaves.pure (hR.refl v)
      | schema k => exact here k (.dependency he) v
  | closed declared place =>
    cases v with
    | object ms =>
      cases hf : m.filter with
      | true =>
        simp only [Changer.check, hf]
        exact Leaves.pure (hR.strip declared place rfl hf ms)
      | false =>
        simp only [Changer.check, hf]
        exact looking_leaves hR _
    | _ => exact looking_leaves hR _
  | additional declared k =>
    rw [Changer.check]
    refine members_leaves hR (fun name x => ?_) v
    cases hdeclared : declared.has name with
    | true => exact Leaves.pure (hR.partRefl _ x)
    | false => exact below k _ (.additional hdeclared) x
  | items k =>
    rw [Changer.check]
    exact items_leaves hR (fun i x => below k _ .item x) v
  | patternProperties entries =>
    rw [Changer.check]
    refine members_leaves hR (fun name x => ?_) v
    refine Leaves.foldlM (hR.partRefl _) hR.partTrans (fun f hf x => ?_) x
    cases ha : f.1.accepts name with
    | false => exact Leaves.pure (hR.partRefl _ x)
    | true => exact below f.2 _ (.pattern hf ha) x
  | allOf ns => exact Leaves.foldlM hR.refl hR.trans (fun k hk v => here k (.member hk) v) v
  | tuple ns =>
    cases v with
    | array xs =>
      refine Leaves.after fun _ => ?_
      refine Leaves.map (P := fun ys => R (.array xs) (.array ys)) ?_ fun _ h => h
      refine Leaves.foldlM (R := fun xs ys => R (.array xs) (.array ys)) (fun _ => hR.refl _)
        hR.trans (fun k hk ys => ?_) xs
      have hfills : (Check.tuple ns).Fills k.1 (.index k.2) := .item hk
      exact item_leaves hR hfills (below _ _ hfills.sends) ys
    | _ => exact Leaves.pure (hR.refl _)
  | properties entries skipNull =>
    cases v with
    | object ms =>
      refine Leaves.after fun _ => ?_
      refine Leaves.map (P := fun ns => R (.object ms) (.object ns)) ?_ fun _ h => h
      refine Leaves.foldlM (R := fun ms ns => R (.object ms) (.object ns)) (fun _ => hR.refl _)
        hR.trans (fun e he ns => ?_) ms
      have hfills : (Check.properties entries skipNull).Fills e.2 (.name e.1) := .member he
      exact member_leaves hR hfills (below _ _ hfills.sends) ns
    | _ => exact looking_leaves hR _
  | additionalItems limit k =>
    rw [Changer.check]
    refine items_leaves hR (fun i x => ?_) v
    split
    · exact Leaves.pure (hR.partRefl _ x)
    · next hlimit => exact below k _ (.itemPast (Nat.not_lt.1 hlimit)) x
  | rule | negation | anyOf | oneOf => exact looking_leaves hR v

end Checks

/-! ## Runs -/

section Runs

variable {s : Scope} {m : Changes} {R : Json → Json → Prop} {P : Segment → Json → Json → Prop}
  {depth : Nat} {p : Site} {h : Heading}

theorem Check.reference_leaves (refl : ∀ v, R v v) (text : String) (place : Path)
    (target : ∀ k, s.subroutines.lookup (.reference text) = some k → .reference text ∉ p.entered →
      ∀ v, Leaves (k.apply s m depth v (p.enter (.reference text))) (R v)) (v : Json) :
    Leaves ((reference text place).apply s m depth h v p) (R v) := by
  intro t w t' ht
  rw [apply_reference] at ht
  split at ht
  · cases ht
    exact refl v
  · next k hk =>
    split at ht
    · cases ht
      exact refl v
    · next he =>
      obtain ⟨⟨x, inner⟩, hx, hw⟩ := Option.bind_eq_some_iff.mp ht
      cases hw
      exact target k hk he v _ _ _ hx

theorem Check.schemaFormat_leaves (refl : ∀ v, R v v) (name : String)
    (target : ∀ k, s.subroutines.lookup (.format name) = some k → .format name ∉ p.entered →
      ∀ v, Leaves (k.apply s m depth v (p.enter (.format name))) (R v)) (v : Json) :
    Leaves ((schemaFormat name).apply s m depth h v p) (R v) := by
  intro t w t' ht
  rw [apply_schemaFormat] at ht
  split at ht
  · cases ht
    exact refl v
  · next k hk =>
    split at ht
    · cases ht
      exact refl v
    · next he => exact target k hk he v _ _ _ ht

/-- A check keeps to a relation that the runs which it makes keep to. -/
theorem Check.leaves_of_visits {c : Check} (hR : c.Admits m R P)
    (here : ∀ k, c.Sends k none → ∀ v, Leaves (k.apply s m depth v p) (R v))
    (below : ∀ k seg, c.Sends k (some seg) → ∀ level, depth = level + 1 → ∀ x,
      Leaves (k.apply s m level x (p.down seg)) (P seg x))
    (target : ∀ k n, c.target? = some k → s.subroutines.lookup k = some n → k ∉ p.entered →
      ∀ v, Leaves (n.apply s m depth v (p.enter k)) (R v)) (v : Json) :
    Leaves (c.apply s m depth h v p) (R v) := by
  rw [funext (Check.apply_eq s m depth h p c v)]
  refine Changer.check_leaves hR here (fun k seg hk x => ?_) (fun text place hct => ?_)
    (fun name hct => ?_) v
  · cases depth with
    | zero =>
      intro t w t' ht
      cases ht
    | succ depth => exact below k seg hk depth rfl x
  · subst hct
    exact Check.reference_leaves hR.refl text place fun k hk he => target _ k rfl hk he
  · subst hct
    exact Check.schemaFormat_leaves hR.refl name fun k hk he => target _ k rfl hk he

/-- A node whose checks keep to a relation keeps to it. -/
theorem Node.changing_leaves {σ : Type} (refl : ∀ v, R v v)
    (trans : ∀ {u v w}, R u v → R v w → R u w) {n : Node} {greedy : Bool}
    {check : Check → Json → StateT σ Option Json} {missing wrongType : Json → StateT σ Option Unit}
    (hc : ∀ c ∈ n.checks, ∀ v, Leaves (check c v) (R v)) (v : Json) :
    Leaves (n.changing greedy check missing wrongType v) (R v) := by
  obtain ⟨h, head, tail⟩ := n
  rw [changing]
  split
  · refine Leaves.bind (P := R v) (Leaves.foldlM refl trans
      (fun c hmem w => hc c (List.mem_append_left tail hmem) w) v) fun w hw => ?_
    refine Leaves.after fun _ => ?_
    split
    · refine (Leaves.foldlM refl trans
        (fun c hmem x => hc c (List.mem_append_right head hmem) x) w).imp fun x hx => ?_
      exact trans hw hx
    · exact Leaves.pure hw
  · exact Leaves.after fun _ => Leaves.pure (refl v)

/-- Runs of certain nodes at certain paths keep to a relation for each path: the checks of these
nodes do it in each step, and they come to such nodes only. -/
structure Scope.Keeps (s : Scope) (m : Changes) (G : Path → Node → Prop)
    (R : Path → Json → Json → Prop) : Prop where
  refl : ∀ p v, R p v v
  trans : ∀ {p u v w}, R p u v → R p v w → R p u w
  admits : ∀ {p n c}, G p n → c ∈ n.checks → c.Admits m (R p) fun seg => R (p ++ [seg])
  here : ∀ {p n c k}, G p n → c ∈ n.checks → c.Sends k none → G p k
  below : ∀ {p n c k seg}, G p n → c ∈ n.checks → c.Sends k (some seg) → G (p ++ [seg]) k
  target : ∀ {p n c t k}, G p n → c ∈ n.checks → c.target? = some t →
    s.subroutines.lookup t = some k → G p k

/-- **What a mutating run makes of a value keeps to a relation** that the single changes keep to,
whatever it reports. -/
theorem Scope.Keeps.apply_leaves {G : Path → Node → Prop} {R : Path → Json → Json → Prop}
    (hR : s.Keeps m G R) {n : Node} (hn : G p.path n) (v : Json) :
    Leaves (n.apply s m depth v p) (R p.path v) := by
  have key : (∀ (n : Node) depth p, G p.path n → ∀ v,
        Leaves (n.apply s m depth v p) (R p.path v)) ∧
      ∀ (c : Check) depth p, ∀ n : Node, G p.path n → c ∈ n.checks → ∀ h v,
        Leaves (c.apply s m depth h v p) (R p.path v) := by
    apply s.level_induction
    · intro n depth p ih hn v
      rw [funext (n.apply_eq s m depth p v)]
      refine Node.changing_leaves (hR.refl _) hR.trans (fun c hc v => ?_) v
      rw [← funext (Check.apply_eq s m depth n.heading p c v)]
      exact ih c hc n hn hc n.heading v
    · intro c depth p here below target n hn hc h v
      refine Check.leaves_of_visits (hR.admits hn hc) (fun k hk => ?_)
        (fun k seg hk level hlevel => ?_) (fun t k ht hk he => ?_) v
      · exact here k hk.mem_here (hR.here hn hc hk)
      · exact below k hk.mem_below level (by omega) seg (hR.below hn hc hk)
      · exact target t k ht hk he (hR.target hn hc ht hk)
  exact key.1 n depth p hn v

variable {F : Json → Prop} (hR : m.Admits F R)
  (hs : ∀ k n, s.subroutines.lookup k = some n → n.FillsIn m F)
include hR hs

/-- The same for a relation that does not ask where a value stands. -/
theorem Node.apply_leaves {n : Node} (hn : n.FillsIn m F) (v : Json) :
    Leaves (n.apply s m depth v p) (R v) := by
  have hkeeps : s.Keeps m (fun _ n => n.FillsIn m F) fun _ => R := by
    refine ⟨fun _ => hR.refl, hR.trans, fun hn hc => ?_, fun hn hc hk => ?_, fun hn hc hk => ?_,
      fun _ _ _ hk => hs _ _ hk⟩
    · exact hR.check fun k hk => hn.nested hc (List.mem_append_right _ hk) k .refl
    · exact hn.nested hc (List.mem_append_left _ hk.mem_here)
    · exact hn.nested hc (List.mem_append_right _ hk.mem_below)
  exact hkeeps.apply_leaves hn v

theorem Check.apply_leaves {c : Check} (hc : ∀ k ∈ c.nodes, k.FillsIn m F) (v : Json) :
    Leaves (c.apply s m depth h v p) (R v) := by
  refine Check.leaves_of_visits (hR.check fun k hk => ?_) (fun k hk => ?_)
    (fun k seg hk level _ => ?_) (fun t k _ hk _ => ?_) v
  · exact hc k (List.mem_append_right _ hk) k .refl
  · exact Node.apply_leaves hR hs (hc k (List.mem_append_left _ hk.mem_here))
  · exact Node.apply_leaves hR hs (hc k (List.mem_append_right _ hk.mem_below))
  · exact Node.apply_leaves hR hs (hs t k hk)

end Runs

end JsonSchema
