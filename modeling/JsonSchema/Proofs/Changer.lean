import JsonSchema.Proofs.GuardedChange
import JsonSchema.Proofs.Positions

/-!
# What a mutating run does with a check

Mutating runs differ in the state that they thread. What one of them makes of a check is fixed by
what it does at nested nodes and at targets, and by how it reports. So two runs that are alike in
these are alike on the check.

* `Changer`: what a mutating run does at the nodes of a check, and how it reports;
* `Changer.check`, `Node.changing`: what it makes of a check and of a node;
* `Alike.Changers.check`, `Alike.changing`: runs that are alike on the parts are on the whole;
* `Check.change_eq`, `Check.apply_eq`: the two mutating runs.
-/

namespace JsonSchema

/-! ## Steps at the parts -/

structure Changer (M : Type → Type) where
  /-- Change the value itself by a nested node, or a part of it. -/
  visit : Node → Json → Option Segment → M Json
  reference : String → Path → Json → M Json
  schemaFormat : String → Json → M Json
  /-- Run a check that leaves the value as it is. -/
  look : Check → Json → M Unit
  /-- Look for the members that a dependency names. -/
  names : List String → Path → Json → M Unit
  /-- Look after a part that does not exist. -/
  absent : Heading → Segment → M Unit
  /-- Go down to the parts of the value. -/
  down : M Unit

namespace Changer

variable {M : Type → Type} [Monad M] (W : Changer M) (m : Changes)

def looking (c : Check) (v : Json) : M Json := do
  W.look c v
  return v

def dependency (d : Dependency) (v : Json) : M Json :=
  match d with
  | .names names place => do
    W.names names place v
    return v
  | .schema k => W.visit k v none

/-- Change every member of an object. -/
def members (f : String → Json → M Json) (v : Json) : M Json :=
  match v with
  | .object ms => do
    W.down
    return .object (← ms.mapM fun e => do return (e.1, ← f e.1 e.2))
  | v => return v

/-- Change every item of an array. -/
def items (f : Nat → Json → M Json) (v : Json) : M Json :=
  match v with
  | .array xs => do
    W.down
    return .array (← xs.zipIdx.mapM fun x => f x.2 x.1)
  | v => return v

/-- Change one item by its place in a tuple, or fill it in. -/
def item (xs : List Json) (k : Node) (i : Nat) : M (List Json) :=
  match xs[i]? with
  | some x => do return xs.set i (← W.visit k x (some (.index i)))
  | none =>
    match if xs.length = i then k.heading.filling? m else none with
    | some x => do return xs ++ [← W.visit k x (some (.index i))]
    | none => do
      W.absent k.heading (.index i)
      return xs

/-- Change one declared member, or fill it in. -/
def member (ms : Members) (name : String) (k : Node) : M Members :=
  match ms.lookup name with
  | some w => do return Members.replace ms name (← W.visit k w (some (.name name)))
  | none =>
    match k.heading.filling? m with
    | some w => do return ms ++ [(name, ← W.visit k w (some (.name name)))]
    | none => do
      W.absent k.heading (.name name)
      return ms

/-- What a mutating run makes of a check. -/
def check (c : Check) (v : Json) : M Json :=
  match c with
  | .dependencies entries => entries.foldlM (fun v e =>
      bif (v.get? e.1).isSome then W.dependency e.2 v else pure v) v
  | .closed declared place =>
    match v, m.filter with
    | .object ms, true => pure (.object (ms.filter fun e => declared.has e.1))
    | v, _ => W.looking (.closed declared place) v
  | .additional declared k => W.members (fun name w =>
      bif declared.has name then pure w else W.visit k w (some (.name name))) v
  | .reference text place => W.reference text place v
  | .schemaFormat name => W.schemaFormat name v
  | .items k => W.items (fun i x => W.visit k x (some (.index i))) v
  | .patternProperties entries => W.members (fun name w => entries.foldlM (fun w e =>
      bif e.1.accepts name then W.visit e.2 w (some (.name name)) else pure w) w) v
  | .allOf ns => ns.foldlM (fun v k => W.visit k v none) v
  | .tuple ns =>
    match v with
    | .array xs => do
      W.down
      return .array (← ns.zipIdx.foldlM (fun xs k => W.item m xs k.1 k.2) xs)
    | v => return v
  | .properties entries skipNull =>
    match v with
    | .object ms => do
      W.down
      return .object (← entries.foldlM (fun ms e => W.member m ms e.1 e.2) ms)
    | v => W.looking (.properties entries skipNull) v
  | .additionalItems limit k => W.items (fun i x =>
      if i < limit then pure x else W.visit k x (some (.index i))) v
  | c => W.looking c v

end Changer

/-- What a mutating run makes of a node, from what it makes of the checks. -/
def Node.changing {M : Type → Type} [Monad M] (n : Node) (greedy : Bool)
    (check : Check → Json → M Json) (missing wrongType : Json → M Unit) (v : Json) : M Json :=
  match n with
  | .mk h head tail =>
    if h.acceptsType v then do
      let v ← head.foldlM (fun v c => check c v) v
      missing v
      if h.missing v = [] ∨ greedy = true then tail.foldlM (fun v c => check c v) v
      else return v
    else do
      wrongType v
      return v

/-! ## Runs that are alike -/

namespace Alike

variable {m₁ m₂ : Type → Type} [Monad m₁] [Monad m₂] (R : Alike m₁ m₂)

theorem foldlM {α β γ : Type} {f : γ → α → m₁ γ} {g : γ → β → m₂ γ} (hr : R.results)
    {xs : List α} {ys : List β} (h : List.Forall₂ (fun x y => ∀ c, R.rel (f c x) (g c y)) xs ys)
    (c : γ) : R.rel (xs.foldlM f c) (ys.foldlM g c) := by
  induction h generalizing c with
  | nil => exact R.same c
  | cons hx _ ih =>
    refine R.bind (hx c) fun a b hab => ?_
    rw [hab hr]
    exact ih b

/-- Two mutating runs are alike at the parts of a check. -/
structure Changers (W₁ : Changer m₁) (W₂ : Changer m₂) (c : Check) : Prop where
  here : ∀ k, c.Sends k none → ∀ v, R.rel (W₁.visit k v none) (W₂.visit k v none)
  below : ∀ k seg, c.Sends k (some seg) → ∀ v,
    R.rel (W₁.visit k v (some seg)) (W₂.visit k v (some seg))
  reference : ∀ text place, c = .reference text place → ∀ v,
    R.rel (W₁.reference text place v) (W₂.reference text place v)
  schemaFormat : ∀ name, c = .schemaFormat name → ∀ v,
    R.rel (W₁.schemaFormat name v) (W₂.schemaFormat name v)
  look : ∀ v, R.rel (W₁.look c v) (W₂.look c v)
  names : ∀ names place v, R.rel (W₁.names names place v) (W₂.names names place v)
  absent : ∀ h seg, R.rel (W₁.absent h seg) (W₂.absent h seg)
  down : R.rel W₁.down W₂.down

namespace Changers

variable {R} {W₁ : Changer m₁} {W₂ : Changer m₂} {c : Check} (h : R.Changers W₁ W₂ c)
include h

theorem looking (v : Json) : R.rel (W₁.looking c v) (W₂.looking c v) :=
  R.bind (h.look v) fun _ _ _ => R.same v

theorem members [LawfulMonad m₁] [LawfulMonad m₂] (hr : R.results) {f : String → Json → m₁ Json}
    {g : String → Json → m₂ Json} (hf : ∀ name w, R.rel (f name w) (g name w)) (v : Json) :
    R.rel (W₁.members f v) (W₂.members g v) := by
  cases v with
  | object ms =>
    refine R.bind h.down fun _ _ _ => ?_
    refine R.bind (R.mapM ms fun e _ => R.map (hf e.1 e.2) _) fun ns ns' hns => ?_
    rw [hns hr]
    exact R.same _
  | _ => exact R.same _

theorem items [LawfulMonad m₁] [LawfulMonad m₂] (hr : R.results) {f : Nat → Json → m₁ Json}
    {g : Nat → Json → m₂ Json} (hf : ∀ i x, R.rel (f i x) (g i x)) (v : Json) :
    R.rel (W₁.items f v) (W₂.items g v) := by
  cases v with
  | array xs =>
    refine R.bind h.down fun _ _ _ => ?_
    refine R.bind (R.mapM _ fun x _ => hf x.2 x.1) fun ys ys' hys => ?_
    rw [hys hr]
    exact R.same _
  | _ => exact R.same _

theorem item (m : Changes) (xs : List Json) {k : Node} {i : Nat}
    (hk : c.Sends k (some (.index i))) : R.rel (W₁.item m xs k i) (W₂.item m xs k i) := by
  rw [Changer.item, Changer.item]
  cases xs[i]? with
  | some x => exact R.map (h.below k _ hk x) _
  | none =>
    cases (if xs.length = i then k.heading.filling? m else none) with
    | some x => exact R.map (h.below k _ hk x) _
    | none => exact R.bind (h.absent _ _) fun _ _ _ => R.same xs

theorem member (m : Changes) (ms : Members) {name : String} {k : Node}
    (hk : c.Sends k (some (.name name))) :
    R.rel (W₁.member m ms name k) (W₂.member m ms name k) := by
  rw [Changer.member, Changer.member]
  cases ms.lookup name with
  | some w => exact R.map (h.below k _ hk w) _
  | none =>
    cases k.heading.filling? m with
    | some w => exact R.map (h.below k _ hk w) _
    | none => exact R.bind (h.absent _ _) fun _ _ _ => R.same ms

/-- **Mutating runs that are alike at the parts of a check are alike on the check.** -/
theorem check [LawfulMonad m₁] [LawfulMonad m₂] (hr : R.results) (m : Changes) (v : Json) :
    R.rel (W₁.check m c v) (W₂.check m c v) := by
  cases c with
  | reference text place => exact h.reference text place rfl v
  | schemaFormat name => exact h.schemaFormat name rfl v
  | dependencies entries =>
    refine R.foldlM hr (List.forall₂_same.mpr fun e he v => ?_) v
    cases (v.get? e.1).isSome with
    | false => exact R.same v
    | true =>
      obtain ⟨name, d⟩ := e
      cases d with
      | names names place => exact R.bind (h.names _ _ v) fun _ _ _ => R.same v
      | schema k => exact h.here k (.dependency he) v
  | closed declared place =>
    cases v with
    | object ms =>
      simp only [Changer.check]
      split
      · exact R.same _
      · exact h.looking _
    | _ => exact h.looking _
  | additional declared k =>
    rw [Changer.check, Changer.check]
    refine h.members hr (fun name w => ?_) v
    cases hdeclared : declared.has name with
    | true => exact R.same w
    | false => exact h.below k _ (.additional hdeclared) w
  | items k =>
    rw [Changer.check, Changer.check]
    exact h.items hr (fun i x => h.below k _ .item x) v
  | patternProperties entries =>
    rw [Changer.check, Changer.check]
    refine h.members hr (fun name w => ?_) v
    refine R.foldlM hr (List.forall₂_same.mpr fun e he w => ?_) w
    cases ha : e.1.accepts name with
    | false => exact R.same w
    | true => exact h.below e.2 _ (.pattern he ha) w
  | allOf ns => exact R.foldlM hr (List.forall₂_same.mpr fun k hk v => h.here k (.member hk) v) v
  | tuple ns =>
    cases v with
    | array xs =>
      refine R.bind h.down fun _ _ _ => R.map ?_ _
      refine R.foldlM hr (List.forall₂_same.mpr fun k hk xs => ?_) xs
      exact h.item m xs (.tupleItem hk)
    | _ => exact R.same _
  | properties entries skipNull =>
    cases v with
    | object ms =>
      refine R.bind h.down fun _ _ _ => R.map ?_ _
      refine R.foldlM hr (List.forall₂_same.mpr fun e he ms => ?_) ms
      exact h.member m ms (.property he)
    | _ => exact h.looking _
  | additionalItems limit k =>
    rw [Changer.check, Changer.check]
    refine h.items hr (fun i x => ?_) v
    split
    · exact R.same x
    · next hlimit => exact h.below k _ (.itemPast (Nat.not_lt.1 hlimit)) x
  | rule | negation | anyOf | oneOf => exact h.looking v

end Changers

/-- Mutating runs that are alike on the checks of a node are alike on the node. -/
theorem changing (hr : R.results) {n : Node} {greedy : Bool} {check₁ : Check → Json → m₁ Json}
    {check₂ : Check → Json → m₂ Json} {missing₁ wrongType₁ : Json → m₁ Unit}
    {missing₂ wrongType₂ : Json → m₂ Unit}
    (hc : ∀ c ∈ n.checks, ∀ v, R.rel (check₁ c v) (check₂ c v))
    (hm : ∀ v, R.rel (missing₁ v) (missing₂ v))
    (ht : ∀ v, R.rel (wrongType₁ v) (wrongType₂ v)) (v : Json) :
    R.rel (n.changing greedy check₁ missing₁ wrongType₁ v)
      (n.changing greedy check₂ missing₂ wrongType₂ v) := by
  obtain ⟨h, head, tail⟩ := n
  have hrun : ∀ cs : List Check, (∀ c ∈ cs, c ∈ (Node.mk h head tail).checks) → ∀ v,
      R.rel (cs.foldlM (fun v c => check₁ c v) v) (cs.foldlM (fun v c => check₂ c v) v) :=
    fun cs hcs v => R.foldlM hr (List.forall₂_same.mpr fun c hmem v => hc c (hcs c hmem) v) v
  rw [Node.changing, Node.changing]
  split
  · refine R.bind (hrun head (fun c => List.mem_append_left tail) v) fun v v' hv => ?_
    rw [hv hr]
    refine R.bind (hm v') fun _ _ _ => ?_
    split
    · exact hrun tail (fun c => List.mem_append_right head) v'
    · exact R.same v'
  · exact R.bind (ht v) fun _ _ _ => R.same v

end Alike

/-! ## The two mutating runs -/

section Threads

variable {σ : Type}

/-- A walk that hands on a value and a state threads the state through the walk over the value. -/
theorem foldlM_thread {α β : Type} (f : α → β → StateT σ Option α) (xs : List β) (a : α) (t : σ) :
    xs.foldlM (fun (y : α × σ) x => f y.1 x y.2) (a, t) = xs.foldlM f a t := by
  induction xs generalizing a t with
  | nil => rfl
  | cons x xs ih =>
    rw [List.foldlM_cons, List.foldlM_cons]
    exact congrArg (Option.bind (f a x t)) (funext fun y => ih y.1 y.2)

theorem changeMembers_eq (f : String → Json → StateT σ Option Json) (ms : Members) (t : σ) :
    changeMembers f ms t =
      (ms.mapM fun e => do return (e.1, ← f e.1 e.2) : StateT σ Option Members) t := by
  induction ms generalizing t with
  | nil => rfl
  | cons e ms ih =>
    rw [List.mapM_cons, changeMembers]
    cases h : f e.1 e.2 t with
    | none =>
      simp only [h, bind, StateT.bind]
      rfl
    | some y =>
      simp only [h, ih, bind, StateT.bind]
      rfl

theorem changeItems_eq (f : Nat → Json → StateT σ Option Json) (i : Nat) (xs : List Json) (t : σ) :
    changeItems f i xs t = ((xs.zipIdx i).mapM fun x => f x.2 x.1) t := by
  induction xs generalizing i t with
  | nil => rfl
  | cons x xs ih =>
    rw [List.zipIdx_cons, List.mapM_cons, changeItems]
    cases h : f i x t with
    | none =>
      simp only [h, bind, StateT.bind]
      rfl
    | some y =>
      simp only [h, ih, bind, StateT.bind]
      rfl

namespace Changer

variable (W : Changer (StateT σ Option)) {t : σ}

theorem members_object (hd : W.down t = some ((), t)) {f : String → Json → StateT σ Option Json}
    {g : String → Json → σ → Option (Json × σ)} (h : ∀ name w t, g name w t = f name w t)
    (ms : Members) :
    (do
      let (ms, t) ← changeMembers g ms t
      return (.object ms, t)) = W.members f (.object ms) t := by
  obtain rfl : g = f := funext fun name => funext fun w => funext fun t => h name w t
  rw [changeMembers_eq, Changer.members]
  simp only [bind, StateT.bind, hd]
  rfl

theorem items_array (hd : W.down t = some ((), t)) {f : Nat → Json → StateT σ Option Json}
    {g : Nat → Json → σ → Option (Json × σ)} (h : ∀ i x t, g i x t = f i x t) (xs : List Json) :
    (do
      let (xs, t) ← changeItems g 0 xs t
      return (.array xs, t)) = W.items f (.array xs) t := by
  obtain rfl : g = f := funext fun i => funext fun x => funext fun t => h i x t
  rw [changeItems_eq, Changer.items]
  simp only [bind, StateT.bind, hd]
  rfl

end Changer

end Threads

section Guarded

variable (s : Scope) (m : Changes) (budget : Nat) (n : Node) (path : Path)

/-- The steps of a mutating run with one guard. -/
def Check.changing : Changer (StateT GuardedRun Option) where
  visit k w below r := k.change s m budget w (path ++ below.toList) (r.note (.nested n k))
  reference text place v r := (Check.reference text place).change s m budget n v path r
  schemaFormat name v r := (Check.schemaFormat name).change s m budget n v path r
  look c v r := do return ((), ← c.run s budget n v path r)
  names names place v r := some ((),
    r.demand (names.all fun name => (v.get? name).isSome) path .dependencies v place)
  absent h seg r := some ((), r.checkAbsent h (path ++ [seg]))
  down r := some ((), r)

theorem Check.changing_here (k : Node) (v : Json) (r : GuardedRun) :
    (changing s m budget n path).visit k v none r =
      k.change s m budget v path (r.note (.nested n k)) := by
  simp only [changing, Option.toList_none, List.append_nil]

theorem Check.changing_looking (c : Check) (v : Json) (r : GuardedRun) :
    (do return (v, ← c.run s budget n v path r)) =
      (changing s m budget n path).looking c v r := by
  simp only [Changer.looking, changing, bind, StateT.bind]
  cases c.run s budget n v path r <;> rfl

theorem Check.changing_item (xs : List Json) (k : Node) (i : Nat) (r : GuardedRun) :
    (match xs[i]? with
      | some x => do
        let (x, r) ← k.change s m budget x (path ++ [.index i]) (r.note (.nested n k))
        return (xs.set i x, r)
      | none =>
        match if xs.length = i then k.heading.filling? m else none with
        | some x => do
          let (x, r) ← k.change s m budget x (path ++ [.index i]) (r.note (.nested n k))
          return (xs ++ [x], r)
        | none => some (xs, r.checkAbsent k.heading (path ++ [.index i]))) =
      (changing s m budget n path).item m xs k i r := by
  rw [Changer.item]
  cases xs[i]? with
  | some x => rfl
  | none => cases (if xs.length = i then k.heading.filling? m else none) <;> rfl

theorem Check.changing_member (ms : Members) (name : String) (k : Node) (r : GuardedRun) :
    (match ms.lookup name with
      | some w => do
        let (w, r) ← k.change s m budget w (path ++ [.name name]) (r.note (.nested n k))
        return (Members.replace ms name w, r)
      | none =>
        match k.heading.filling? m with
        | some w => do
          let (w, r) ← k.change s m budget w (path ++ [.name name]) (r.note (.nested n k))
          return (ms ++ [(name, w)], r)
        | none => some (ms, r.checkAbsent k.heading (path ++ [.name name]))) =
      (changing s m budget n path).member m ms name k r := by
  rw [Changer.member]
  cases ms.lookup name with
  | some w => rfl
  | none => cases k.heading.filling? m <;> rfl

theorem Check.changing_dependencies (entries : List (String × Dependency)) (v : Json)
    (r : GuardedRun) : (Check.dependencies entries).change s m budget n v path r =
      (changing s m budget n path).check m (.dependencies entries) v r := by
  rw [change, Changer.check, ← foldlM_thread]
  congr 1
  funext y e
  obtain ⟨w, r⟩ := y
  obtain ⟨name, d⟩ := e
  dsimp only
  cases (w.get? name).isSome with
  | false => rfl
  | true =>
    cases d with
    | names names place => rw [Dependency.change]; rfl
    | schema k => rw [Dependency.change]; exact (changing_here s m budget n path k w r).symm

theorem Check.changing_patternProperties (entries : List (Pattern × Node)) (ms : Members)
    (r : GuardedRun) : (Check.patternProperties entries).change s m budget n (.object ms) path r =
      (changing s m budget n path).check m (.patternProperties entries) (.object ms) r := by
  rw [change, Changer.check]
  refine Changer.members_object _ rfl (fun name w r => ?_) ms
  rw [← foldlM_thread]
  congr 1
  funext y e
  obtain ⟨w, r⟩ := y
  dsimp only
  cases e.1.accepts name <;> rfl

theorem Check.changing_tuple (ns : List Node) (xs : List Json) (r : GuardedRun) :
    (Check.tuple ns).change s m budget n (.array xs) path r =
      (changing s m budget n path).check m (.tuple ns) (.array xs) r := by
  have hfold := (foldlM_thread (fun xs (k : Node × Nat) =>
    (changing s m budget n path).item m xs k.1 k.2) ns.zipIdx xs r).symm
  simp only [← changing_item] at hfold
  rw [change, List.foldlM_subtype (fun _ _ _ => rfl), List.unattach_attach]
  exact congrArg (fun y => y >>= fun y => some (Json.array y.1, y.2)) hfold.symm

theorem Check.changing_properties (entries : List (String × Node)) (skipNull : Bool)
    (ms : Members) (r : GuardedRun) :
    (Check.properties entries skipNull).change s m budget n (.object ms) path r =
      (changing s m budget n path).check m (.properties entries skipNull) (.object ms) r := by
  have hfold := (foldlM_thread (fun ms (e : String × Node) =>
    (changing s m budget n path).member m ms e.1 e.2) entries ms r).symm
  simp only [← changing_member] at hfold
  rw [change]
  exact congrArg (fun y => y >>= fun y => some (Json.object y.1, y.2)) hfold.symm

/-- **A mutating run with one guard** takes the steps of its check. -/
theorem Check.change_eq (c : Check) (v : Json) (r : GuardedRun) :
    c.change s m budget n v path r = (changing s m budget n path).check m c v r := by
  cases c with
  | dependencies entries => exact changing_dependencies s m budget n path entries v r
  | closed declared place =>
    cases v with
    | object ms =>
      cases hf : m.filter with
      | true =>
        simp only [change, Changer.check, hf]
        rfl
      | false =>
        simp only [change.eq_def, Changer.check, hf]
        exact changing_looking ..
    | _ =>
      simp only [change, Changer.check]
      exact changing_looking ..
  | additional declared k =>
    cases v with
    | object ms =>
      rw [change, Changer.check]
      refine Changer.members_object _ rfl (fun name w r => ?_) ms
      cases declared.has name <;> rfl
    | _ => simp only [change]; rfl
  | items k =>
    cases v with
    | array xs =>
      rw [change, Changer.check]
      exact Changer.items_array _ rfl (fun i x r => rfl) xs
    | _ => simp only [change]; rfl
  | patternProperties entries =>
    cases v with
    | object ms => exact changing_patternProperties s m budget n path entries ms r
    | _ => simp only [change]; rfl
  | allOf ns =>
    rw [change, Changer.check, ← foldlM_thread]
    simp only [changing_here]
  | tuple ns =>
    cases v with
    | array xs => exact changing_tuple s m budget n path ns xs r
    | _ => simp only [change]; rfl
  | properties entries skipNull =>
    cases v with
    | object ms => exact changing_properties s m budget n path entries skipNull ms r
    | _ =>
      rw [change]
      · exact changing_looking ..
      · intro ms hms
        cases hms
  | additionalItems limit k =>
    cases v with
    | array xs =>
      rw [change, Changer.check]
      refine Changer.items_array _ rfl (fun i x r => ?_) xs
      split <;> rfl
    | _ => simp only [change]; rfl
  | reference | schemaFormat => rfl
  | rule | negation | anyOf | oneOf => rw [change]; exact changing_looking ..

/-- Checks one after another take the steps of their check. -/
theorem Check.foldlM_change (cs : List Check) (v : Json) (r : GuardedRun) :
    cs.foldlM (fun (v, r) c => c.change s m budget n v path r) (v, r) =
      cs.foldlM (fun v c => (changing s m budget n path).check m c v) v r := by
  rw [← foldlM_thread]
  simp only [change_eq]

/-- A step under another declared type, which is taken back at its end. -/
def GuardedRun.under {α : Type} (d : Option Json) (f : StateT GuardedRun Option α) :
    StateT GuardedRun Option α := fun r => do
  let (a, r') ← f { r with declaredType := d }
  return (a, { r' with declaredType := r.declaredType })

theorem Node.change_eq (v : Json) (r : GuardedRun) :
    n.change s m budget v path r =
      GuardedRun.under n.heading.declaredType
        (n.changing s.greedy ((Check.changing s m budget n path).check m)
          (fun v r => some ((), r.reportMissing n.heading v path))
          (fun v r => some ((), r.report path .type (some v) (n.heading.place "type"))) v) r := by
  obtain ⟨h, head, tail⟩ := n
  rw [change, changing, GuardedRun.under]
  simp only [Check.foldlM_change, heading]
  split
  · simp only [bind, StateT.bind]
    cases head.foldlM (fun v c => (Check.changing s m budget (.mk h head tail) path).check m c v) v
      { r with declaredType := h.declaredType } with
    | none => rfl
    | some y =>
      simp only [Option.bind_some]
      split <;> rfl
  · rfl

end Guarded

section Applied

variable (s : Scope) (m : Changes) (depth : Nat) (h : Heading) (p : Site)

/-- The steps of a mutating run that goes down at most `depth` levels. -/
def Check.applying : Changer (StateT Tally Option) where
  visit k w below t :=
    match below, depth with
    | none, depth => k.apply s m depth w p t
    | some seg, depth + 1 => k.apply s m depth w (p.down seg) t
    | some _, 0 => none
  reference text place v t := (Check.reference text place).apply s m depth h v p t
  schemaFormat name v t := (Check.schemaFormat name).apply s m depth h v p t
  look c v t := some ((), c.check s h v p t)
  names names place v t := some ((), (Dependency.names names place).check s h v p t)
  absent k seg t := some ((), k.checkAbsent (p.down seg) t)
  down t :=
    match depth with
    | 0 => none
    | _ + 1 => some ((), t)

theorem Check.applying_item (xs : List Json) (k : Node) (i : Nat) (t : Tally) :
    (match xs[i]? with
      | some x => do
        let (x, t) ← k.apply s m depth x (p.down (.index i)) t
        return (xs.set i x, t)
      | none =>
        match if xs.length = i then k.heading.filling? m else none with
        | some x => do
          let (x, t) ← k.apply s m depth x (p.down (.index i)) t
          return (xs ++ [x], t)
        | none => some (xs, k.heading.checkAbsent (p.down (.index i)) t)) =
      (applying s m (depth + 1) h p).item m xs k i t := by
  rw [Changer.item]
  cases xs[i]? with
  | some x => rfl
  | none => cases (if xs.length = i then k.heading.filling? m else none) <;> rfl

theorem Check.applying_member (ms : Members) (name : String) (k : Node) (t : Tally) :
    (match ms.lookup name with
      | some w => do
        let (w, t) ← k.apply s m depth w (p.down (.name name)) t
        return (Members.replace ms name w, t)
      | none =>
        match k.heading.filling? m with
        | some w => do
          let (w, t) ← k.apply s m depth w (p.down (.name name)) t
          return (ms ++ [(name, w)], t)
        | none => some (ms, k.heading.checkAbsent (p.down (.name name)) t)) =
      (applying s m (depth + 1) h p).member m ms name k t := by
  rw [Changer.member]
  cases ms.lookup name with
  | some w => rfl
  | none => cases k.heading.filling? m <;> rfl

theorem Check.applying_dependencies (entries : List (String × Dependency)) (v : Json)
    (t : Tally) : (Check.dependencies entries).apply s m depth h v p t =
      (applying s m depth h p).check m (.dependencies entries) v t := by
  rw [apply, Changer.check, ← foldlM_thread]
  congr 1
  funext y e
  obtain ⟨w, t⟩ := y
  obtain ⟨name, d⟩ := e
  dsimp only
  cases (w.get? name).isSome with
  | false => rfl
  | true => cases d <;> (rw [Dependency.apply]; rfl)

theorem Check.applying_patternProperties (entries : List (Pattern × Node)) (ms : Members)
    (t : Tally) : (Check.patternProperties entries).apply s m (depth + 1) h (.object ms) p t =
      (applying s m (depth + 1) h p).check m (.patternProperties entries) (.object ms) t := by
  rw [apply, Changer.check]
  refine Changer.members_object _ rfl (fun name w t => ?_) ms
  rw [← foldlM_thread]
  congr 1
  funext y e
  obtain ⟨w, t⟩ := y
  dsimp only
  cases e.1.accepts name <;> rfl

theorem Check.applying_tuple (ns : List Node) (xs : List Json) (t : Tally) :
    (Check.tuple ns).apply s m (depth + 1) h (.array xs) p t =
      (applying s m (depth + 1) h p).check m (.tuple ns) (.array xs) t := by
  have hfold := (foldlM_thread (fun xs (k : Node × Nat) =>
    (applying s m (depth + 1) h p).item m xs k.1 k.2) ns.zipIdx xs t).symm
  simp only [← applying_item] at hfold
  rw [apply, List.foldlM_subtype (fun _ _ _ => rfl), List.unattach_attach]
  exact congrArg (fun y => y >>= fun y => some (Json.array y.1, y.2)) hfold.symm

theorem Check.applying_properties (entries : List (String × Node)) (skipNull : Bool)
    (ms : Members) (t : Tally) :
    (Check.properties entries skipNull).apply s m (depth + 1) h (.object ms) p t =
      (applying s m (depth + 1) h p).check m (.properties entries skipNull) (.object ms) t := by
  have hfold := (foldlM_thread (fun ms (e : String × Node) =>
    (applying s m (depth + 1) h p).member m ms e.1 e.2) entries ms t).symm
  simp only [← applying_member] at hfold
  rw [apply]
  exact congrArg (fun y => y >>= fun y => some (Json.object y.1, y.2)) hfold.symm

/-- **A mutating run** takes the steps of its check. -/
theorem Check.apply_eq (c : Check) (v : Json) (t : Tally) :
    c.apply s m depth h v p t = (applying s m depth h p).check m c v t := by
  cases c with
  | dependencies entries => exact applying_dependencies s m depth h p entries v t
  | closed declared place =>
    cases v with
    | object ms =>
      cases hf : m.filter with
      | true =>
        simp only [apply, Changer.check, hf]
        rfl
      | false =>
        simp only [apply.eq_def, Changer.check, hf]
        rfl
    | _ =>
      simp only [apply, Changer.check]
      rfl
  | additional declared k =>
    cases v with
    | object ms =>
      cases depth with
      | zero =>
        rw [apply]
        rfl
      | succ depth =>
        rw [apply, Changer.check]
        refine Changer.members_object _ rfl (fun name w t => ?_) ms
        cases declared.has name <;> rfl
    | _ => simp only [apply]; rfl
  | items k =>
    cases v with
    | array xs =>
      cases depth with
      | zero =>
        rw [apply]
        rfl
      | succ depth =>
        rw [apply, Changer.check]
        exact Changer.items_array _ rfl (fun i x t => rfl) xs
    | _ => simp only [apply]; rfl
  | patternProperties entries =>
    cases v with
    | object ms =>
      cases depth with
      | zero =>
        rw [apply]
        rfl
      | succ depth => exact applying_patternProperties s m depth h p entries ms t
    | _ => simp only [apply]; rfl
  | allOf ns =>
    rw [apply, Changer.check, ← foldlM_thread]
    rfl
  | tuple ns =>
    cases v with
    | array xs =>
      cases depth with
      | zero =>
        rw [apply]
        rfl
      | succ depth => exact applying_tuple s m depth h p ns xs t
    | _ => simp only [apply]; rfl
  | properties entries skipNull =>
    cases v with
    | object ms =>
      cases depth with
      | zero =>
        rw [apply]
        rfl
      | succ depth => exact applying_properties s m depth h p entries skipNull ms t
    | _ => simp only [apply]; rfl
  | additionalItems limit k =>
    cases v with
    | array xs =>
      cases depth with
      | zero =>
        rw [apply]
        rfl
      | succ depth =>
        rw [apply, Changer.check]
        refine Changer.items_array _ rfl (fun i x t => ?_) xs
        split <;> rfl
    | _ => simp only [apply]; rfl
  | reference | schemaFormat => rfl
  | rule r place =>
    rw [apply, ← check]
    rfl
  | negation | anyOf | oneOf =>
    rw [apply]
    rfl

theorem Check.foldlM_apply (cs : List Check) (v : Json) (t : Tally) :
    cs.foldlM (fun (v, t) c => c.apply s m depth h v p t) (v, t) =
      cs.foldlM (fun v c => (applying s m depth h p).check m c v) v t := by
  rw [← foldlM_thread]
  simp only [apply_eq]

theorem Node.apply_eq (n : Node) (v : Json) (t : Tally) :
    n.apply s m depth v p t = n.changing s.greedy ((Check.applying s m depth n.heading p).check m)
      (fun v t => some ((), n.heading.reportMissing v p t))
      (fun v t => some ((), n.heading.reportType v p t)) v t := by
  obtain ⟨h, head, tail⟩ := n
  rw [apply, changing]
  simp only [Check.foldlM_apply, heading]
  split
  · simp only [bind, StateT.bind]
    cases head.foldlM (fun v c => (Check.applying s m depth h p).check m c v) v t with
    | none => rfl
    | some y =>
      simp only [Option.bind_some]
      split <;> rfl
  · rfl

end Applied
end JsonSchema
