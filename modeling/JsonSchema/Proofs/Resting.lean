import JsonSchema.Proofs.Buildable
import JsonSchema.Proofs.Still
import JsonSchema.Proofs.Termination

/-!
# Runs on values that are left alone

Where a mutating run rejects no member and fills in nothing, it leaves the value as it is, and it
reports what a run that only looks at the value reports.

* `Rests`: a step that has one result, and takes each state to a certain one;
* `Check.Full`: no absent part of a value would be filled in;
* `Check.rests`: a check that strips nothing, fills in nothing and whose visits change nothing;
* `Node.Still.apply_eq`: the mutating run on a value that it leaves alone;
* `Validator.validateMut_eq_validate`: without filtering and defaults a mutating run only looks at
  the value.
-/

namespace JsonSchema

/-! ## Steps -/

section Steps

variable {σ α β γ : Type}

/-- A step from all states has the result `a` and leads to the state that `g` says. -/
def Rests (x : StateT σ Option α) (a : α) (g : σ → σ) : Prop := ∀ t, x t = some (a, g t)

namespace Rests

variable {x : StateT σ Option α} {a : α} {b : β} {g : σ → σ}

theorem pure (a : α) : Rests (Pure.pure a : StateT σ Option α) a fun t => t := fun _ => rfl

theorem congr (hx : Rests x a g) {e : σ → σ} (h : ∀ t, e t = g t) : Rests x a e := fun t => by
  rw [hx t, h t]

theorem bind {f : α → StateT σ Option β} {e : σ → σ} (hx : Rests x a g) (hf : Rests (f a) b e) :
    Rests (x >>= f) b fun t => e (g t) := by
  intro t
  show (x t >>= fun y => f y.1 y.2) = _
  rw [hx t]
  exact hf (g t)

theorem map (hx : Rests x a g) (f : α → β) : Rests (do return f (← x)) (f a) g :=
  Rests.bind (f := fun a => Pure.pure (f a)) (e := fun t => t) hx (Rests.pure (f a))

theorem foldlM {f : α → β → StateT σ Option α} {g : β → σ → σ} {xs : List β}
    (h : ∀ x ∈ xs, Rests (f a x) a (g x)) :
    Rests (xs.foldlM f a) a fun t => xs.foldl (fun t x => g x t) t := by
  induction xs with
  | nil => exact Rests.pure a
  | cons x xs ih =>
    have hxs := ih fun y hy => h y (List.mem_cons_of_mem x hy)
    rw [List.foldlM_cons]
    exact Rests.bind (f := fun b => xs.foldlM f b) (h x List.mem_cons_self) hxs

theorem mapM {f : β → StateT σ Option γ} {i : β → γ} {g : β → σ → σ} {xs : List β}
    (h : ∀ x ∈ xs, Rests (f x) (i x) (g x)) :
    Rests (xs.mapM f) (xs.map i) fun t => xs.foldl (fun t x => g x t) t := by
  induction xs with
  | nil => exact Rests.pure []
  | cons x xs ih =>
    have hxs := (ih fun y hy => h y (List.mem_cons_of_mem x hy)).map fun ys => i x :: ys
    rw [List.mapM_cons]
    exact Rests.bind (f := fun y => do return y :: (← xs.mapM f)) (h x List.mem_cons_self) hxs

end Rests

end Steps

/-! ## Checks -/

section Changers

variable {σ : Type} {W : Changer (StateT σ Option)} {m : Changes}

theorem Changer.rests_members {f : String → Json → StateT σ Option Json}
    {g : String × Json → σ → σ} {ms : Members} (hdown : Rests W.down () fun t => t)
    (hf : ∀ e ∈ ms, Rests (f e.1 e.2) e.2 (g e)) :
    Rests (W.members f (.object ms)) (.object ms) fun t => ms.foldl (fun t e => g e t) t := by
  refine hdown.bind ?_
  have hms := (Rests.mapM fun e he => (hf e he).map fun w => (e.1, w)).map Json.object
  rwa [List.map_id'' fun _ => rfl] at hms

theorem Changer.rests_items {f : Nat → Json → StateT σ Option Json} {g : Json × Nat → σ → σ}
    {xs : List Json} (hdown : Rests W.down () fun t => t)
    (hf : ∀ x ∈ xs.zipIdx, Rests (f x.2 x.1) x.1 (g x)) :
    Rests (W.items f (.array xs)) (.array xs)
      fun t => xs.zipIdx.foldl (fun t x => g x t) t := by
  refine hdown.bind ?_
  have hxs := (Rests.mapM hf).map Json.array
  rwa [List.zipIdx_map_fst] at hxs

end Changers

section Checks

variable {s : Scope} {m : Changes} {depth : Nat} {h : Heading} {p : Site} {c : Check} {v : Json}

/-- There is no default that the check would fill in for an absent part of the value. -/
def Check.Full (m : Changes) (c : Check) (v : Json) : Prop :=
  match c, v with
  | tuple ns, .array xs => ∀ k, ns[xs.length]? = some k → k.heading.filling? m = none
  | properties entries _, .object ms =>
    ∀ e ∈ entries, ms.lookup e.1 = none → e.2.heading.filling? m = none
  | _, _ => True

theorem Check.full_of_unfilled (h : ∀ k ∈ c.nodesBelow, k.heading.filling? m = none) (v : Json) :
    c.Full m v := by
  cases c with
  | tuple ns =>
    cases v with
    | array xs => exact fun k hk => h k (List.mem_of_getElem? hk)
    | _ => trivial
  | properties entries skipNull =>
    cases v with
    | object ms => exact fun e he _ => h e.2 (List.mem_map_of_mem he)
    | _ => trivial
  | _ => trivial

/-- The check removes nothing and fills in nothing, and the nested nodes and the targets that it
takes a run to leave the value alone. -/
structure Check.Resting (s : Scope) (m : Changes) (depth : Nat) (c : Check) (v : Json) (p : Site) :
    Prop where
  keeps : m.filter = true → c.strips v = false
  full : c.Full m v
  distinct : v.distinct
  depth_pos : 0 < depth
  here : ∀ k, c.Comes v k v none →
    Rests (k.apply s m depth v p) v (k.check s v p)
  below : ∀ k w seg, c.Comes v k w (some seg) → ∀ level, depth = level + 1 →
    Rests (k.apply s m level w (p.down seg)) w (k.check s w (p.down seg))
  target : ∀ k n, c.target? = some k → s.subroutines.lookup k = some n → k ∉ p.entered →
    Rests (n.apply s m depth v (p.enter k)) v (n.check s v (p.enter k))

namespace Check.Resting

theorem looking (v : Json) :
    Rests ((applying s m depth h p).looking c v) v (c.check s h v p) := fun _ => rfl

theorem down {level : Nat} : Rests (applying s m (level + 1) h p).down () fun t => t := fun _ => rfl

/-- An object or an array lets a run go down. -/
theorem exists_level (hr : c.Resting s m depth v p) : ∃ level, depth = level + 1 :=
  Nat.exists_eq_add_one.2 hr.depth_pos

theorem reference {text : String} {place : Path}
    (hr : (Check.reference text place).Resting s m depth v p) :
    Rests ((Check.reference text place).apply s m depth h v p) v
      ((Check.reference text place).check s h v p) := by
  intro t
  rw [apply_reference, check_reference, answers]
  cases hk : s.subroutines.lookup (.reference text) with
  | none => rfl
  | some k =>
    by_cases he : .reference text ∈ p.entered
    · simp [he, Heading.demand]
    · simp only [he, if_false, decide_false, Bool.false_or,
        hr.target _ k rfl hk he (Tally.start .off)]
      rfl

theorem schemaFormat {name : String} (hr : (Check.schemaFormat name).Resting s m depth v p) :
    Rests ((Check.schemaFormat name).apply s m depth h v p) v
      ((Check.schemaFormat name).check s h v p) := by
  intro t
  rw [apply_schemaFormat, check_schemaFormat]
  cases hk : s.subroutines.lookup (.format name) with
  | none => rfl
  | some k =>
    by_cases he : .format name ∈ p.entered
    · simp only [he, if_true]
    · simp only [he, if_false]
      exact hr.target _ k rfl hk he t

theorem dependencies {entries : List (String × Dependency)}
    (hr : (Check.dependencies entries).Resting s m depth v p) :
    Rests ((applying s m depth h p).check m (.dependencies entries) v) v
      ((Check.dependencies entries).check s h v p) := by
  have hfold : Rests ((applying s m depth h p).check m (.dependencies entries) v) v
      fun t => entries.foldl (fun t e =>
        bif (v.get? e.1).isSome then e.2.check s h v p t else t) t := by
    refine Rests.foldlM fun e he => ?_
    cases hget : (v.get? e.1).isSome with
    | false => exact Rests.pure v
    | true =>
      obtain ⟨name, d⟩ := e
      cases d with
      | names names place => exact fun t => rfl
      | schema k =>
        cases v with
        | object ms =>
          refine (hr.here k (.dependency he hget)).congr fun t => ?_
          simp only [cond_true, Dependency.check]
        | _ => cases hget
  refine hfold.congr fun t => ?_
  cases v with
  | object ms => rw [check]; rfl
  | _ => simp [check, Json.get?]

theorem closed {declared : Declared} {place : Path}
    (hr : (Check.closed declared place).Resting s m depth v p) :
    Rests ((applying s m depth h p).check m (.closed declared place) v) v
      ((Check.closed declared place).check s h v p) := by
  cases v with
  | object ms =>
    cases hf : m.filter with
    | false =>
      simp only [Changer.check, hf]
      exact looking _
    | true =>
      have hdeclared : ∀ e ∈ ms, declared.has e.1 = true := by
        have hkeeps := hr.keeps hf
        rw [strips, List.any_eq_false] at hkeeps
        exact fun e he => by simpa using hkeeps e he
      have hall : ms.filter (fun e => declared.has e.1) = ms := List.filter_eq_self.2 hdeclared
      have hnone : ms.filter (fun e => !declared.has e.1) = [] :=
        List.filter_eq_nil_iff.2 fun e he => by simp [hdeclared e he]
      simp only [Changer.check, hf, hall]
      refine (Rests.pure _).congr fun t => ?_
      rw [check, hnone]
      rfl
  | _ => exact looking _

theorem additional {declared : Declared} {k : Node}
    (hr : (Check.additional declared k).Resting s m depth v p) :
    Rests ((applying s m depth h p).check m (.additional declared k) v) v
      ((Check.additional declared k).check s h v p) := by
  cases v with
  | object ms =>
    obtain ⟨level, rfl⟩ := hr.exists_level
    rw [Changer.check]
    refine (Changer.rests_members (g := fun e t =>
      bif declared.has e.1 then t else k.check s e.2 (p.down (.name e.1)) t) down
        fun e he => ?_).congr
        fun t => by rw [check]
    cases hd : declared.has e.1 with
    | true => exact Rests.pure e.2
    | false => exact hr.below k e.2 (.name e.1) (.additional he hd) level rfl
  | _ => exact (Rests.pure _).congr fun t => by simp [check]

theorem items {k : Node} (hr : (Check.items k).Resting s m depth v p) :
    Rests ((applying s m depth h p).check m (.items k) v) v
      ((Check.items k).check s h v p) := by
  cases v with
  | array xs =>
    obtain ⟨level, rfl⟩ := hr.exists_level
    rw [Changer.check]
    refine (Changer.rests_items (g := fun x => k.check s x.1 (p.down (.index x.2))) down
      fun x hx => ?_).congr fun t => check_items s h k xs p t
    exact hr.below k x.1 (.index x.2) (.item (List.mem_zipIdx_iff_getElem?.1 hx)) level rfl
  | _ => exact (Rests.pure _).congr fun t => by simp [check]

theorem additionalItems {limit : Nat} {k : Node}
    (hr : (Check.additionalItems limit k).Resting s m depth v p) :
    Rests ((applying s m depth h p).check m (.additionalItems limit k) v) v
      ((Check.additionalItems limit k).check s h v p) := by
  cases v with
  | array xs =>
    obtain ⟨level, rfl⟩ := hr.exists_level
    rw [Changer.check]
    refine (Changer.rests_items (g := fun x t =>
      if x.2 < limit then t else k.check s x.1 (p.down (.index x.2)) t) down fun x hx => ?_).congr
        fun t => ?_
    · split
      · exact Rests.pure x.1
      · next hlimit =>
        have hitem := List.mem_zipIdx_iff_getElem?.1 hx
        exact hr.below k x.1 (.index x.2) (.itemPast (Nat.not_lt.1 hlimit) hitem) level rfl
    · rw [check_additionalItems, zipIdx_drop_eq_filter, List.foldl_filter]
      congr 1
      funext t x
      by_cases hx : x.2 < limit
      · simp [hx, Nat.not_le.2 hx]
      · simp [hx, Nat.not_lt.1 hx]
  | _ => exact (Rests.pure _).congr fun t => by simp [check]

theorem patternProperties {entries : List (Pattern × Node)}
    (hr : (Check.patternProperties entries).Resting s m depth v p) :
    Rests ((applying s m depth h p).check m (.patternProperties entries) v) v
      ((Check.patternProperties entries).check s h v p) := by
  cases v with
  | object ms =>
    obtain ⟨level, rfl⟩ := hr.exists_level
    rw [Changer.check]
    refine (Changer.rests_members (g := fun e t => entries.foldl (fun t f =>
      bif f.1.accepts e.1 then f.2.check s e.2 (p.down (.name e.1)) t else t) t) down
        fun e he => ?_).congr fun t => by rw [check]
    refine Rests.foldlM fun f hf => ?_
    cases ha : f.1.accepts e.1 with
    | false => exact Rests.pure e.2
    | true => exact hr.below f.2 e.2 (.name e.1) (.pattern hf he ha) level rfl
  | _ => exact (Rests.pure _).congr fun t => by simp [check]

theorem tuple {ns : List Node} (hr : (Check.tuple ns).Resting s m depth v p) :
    Rests ((applying s m depth h p).check m (.tuple ns) v) v
      ((Check.tuple ns).check s h v p) := by
  cases v with
  | array xs =>
    obtain ⟨level, rfl⟩ := hr.exists_level
    have hfold : Rests (ns.zipIdx.foldlM
        (fun xs k => (applying s m (level + 1) h p).item m xs k.1 k.2) xs) xs
        fun t => ns.zipIdx.foldl (fun t k =>
          checkPart s k.1 xs[k.2]? (p.down (.index k.2)) t) t := by
      refine Rests.foldlM fun k hk => ?_
      rw [Changer.item]
      cases hx : xs[k.2]? with
      | some x =>
        have hset : xs.set k.2 x = xs := by
          obtain ⟨hi, rfl⟩ := List.getElem?_eq_some_iff.1 hx
          exact List.set_getElem_self hi
        have hrest := (hr.below k.1 x _ (.tupleItem hk hx) level rfl).map fun y => xs.set k.2 y
        rwa [hset] at hrest
      | none =>
        have hfull : (if xs.length = k.2 then k.1.heading.filling? m else none) = none := by
          split
          · next hlength =>
            exact hr.full k.1 (hlength ▸ List.mem_zipIdx_iff_getElem?.1 hk)
          · rfl
        simp only [hfull]
        exact fun t => rfl
    refine (down.bind (hfold.map Json.array)).congr fun t => ?_
    exact check_tuple s h ns xs p t
  | _ => exact (Rests.pure _).congr fun t => by simp [check]

theorem properties {entries : List (String × Node)} {skipNull : Bool}
    (hr : (Check.properties entries skipNull).Resting s m depth v p) :
    Rests ((applying s m depth h p).check m (.properties entries skipNull) v) v
      ((Check.properties entries skipNull).check s h v p) := by
  cases v with
  | object ms =>
    obtain ⟨level, rfl⟩ := hr.exists_level
    have hfold : Rests (entries.foldlM
        (fun ms e => (applying s m (level + 1) h p).member m ms e.1 e.2) ms) ms
        fun t => entries.foldl (fun t e =>
          checkPart s e.2 (ms.lookup e.1) (p.down (.name e.1)) t) t := by
      refine Rests.foldlM fun e he => ?_
      rw [Changer.member]
      cases hw : ms.lookup e.1 with
      | some w =>
        have hself := Members.replace_self ms e.1 (Json.distinct_object.1 hr.distinct).1 hw
        have hrest := (hr.below e.2 w _ (.property he hw) level rfl).map fun x =>
          Members.replace ms e.1 x
        rwa [hself] at hrest
      | none =>
        simp only [hr.full e he hw]
        exact fun t => rfl
    refine (down.bind (hfold.map Json.object)).congr fun t => ?_
    exact check_properties s h entries skipNull ms p t
  | _ => exact looking _

end Check.Resting

/-- **A check that strips nothing, fills in nothing and whose visits change nothing** leaves the
value as it is, and it reports what it reports when it only looks at the value. -/
theorem Check.rests (hr : c.Resting s m depth v p) :
    Rests (c.apply s m depth h v p) v (c.check s h v p) := by
  rw [funext (Check.apply_eq s m depth h p c v)]
  cases c with
  | reference text place => exact hr.reference
  | schemaFormat name => exact hr.schemaFormat
  | dependencies entries => exact hr.dependencies
  | closed declared place => exact hr.closed
  | additional declared k => exact hr.additional
  | items k => exact hr.items
  | patternProperties entries => exact hr.patternProperties
  | allOf ns => exact (Rests.foldlM fun k hk => hr.here k (.member hk)).congr fun t => by rw [check]
  | tuple ns => exact hr.tuple
  | properties entries skipNull => exact hr.properties
  | additionalItems limit k => exact hr.additionalItems
  | rule | negation | anyOf | oneOf => exact Resting.looking v

end Checks

/-! ## Nodes -/

section Nodes

variable {s : Scope} {m : Changes} {n : Node} {v : Json} {p : Site} {depth : Nat}

theorem Node.rests_mk (hc : ∀ c ∈ n.due s v, ∀ h : Heading,
      Rests (c.apply s m depth h v p) v (c.check s h v p)) :
    Rests (n.apply s m depth v p) v (n.check s v p) := by
  rw [funext (n.apply_eq s m depth p v)]
  obtain ⟨h, head, tail⟩ := n
  have hrun : ∀ cs : List Check, (∀ c ∈ cs, c ∈ (mk h head tail).due s v) →
      Rests (cs.foldlM (fun v c => (Check.applying s m depth h p).check m c v) v) v
        fun t => cs.foldl (fun t c => c.check s h v p t) t := by
    intro cs hcs
    refine Rests.foldlM fun c hmem => ?_
    rw [← funext (Check.apply_eq s m depth h p c v)]
    exact hc c (hcs c hmem) h
  intro t
  rw [changing, check]
  by_cases ht : h.acceptsType v = true
  · have hhead := hrun head fun c hmem => mem_due_iff.2 ⟨ht, .inl hmem⟩
    rw [if_pos ht, if_pos ht]
    refine Eq.trans (congrArg (Option.bind · _) (hhead t)) ?_
    by_cases hm : h.missing v = [] ∨ s.greedy = true
    · have htail := hrun tail fun c hmem => mem_due_iff.2 ⟨ht, .inr ⟨hmem, hm⟩⟩
      rw [if_pos hm, ← htail]
      exact congrFun (if_pos hm) _
    · rw [if_neg hm]
      exact congrFun (if_neg hm) _
  · rw [if_neg ht, if_neg ht]
    rfl

/-- **A mutating run on a value that it leaves alone** is the run that only looks at the value. -/
theorem Node.Still.apply_eq (hs : ∀ k n, s.subroutines.lookup k = some n → n.Unfilled m)
    (h : n.Still s m v p) (hn : n.Unfilled m) (hd : v.distinct) (hv : v.height ≤ depth)
    (t : Tally) : n.apply s m depth v p t = some (v, n.check s v p t) := by
  suffices hrests : Rests (n.apply s m depth v p) v (n.check s v p) from hrests t
  clear t
  induction h generalizing depth with
  | @mk n v p hkeeps hvisits ih =>
    refine Node.rests_mk fun c hc heading => Check.rests ?_
    have hnode : c ∈ n.checks := Node.mem_checks_of_due hc
    constructor
    case keeps => exact hkeeps c hc
    case full =>
      refine Check.full_of_unfilled (fun k hk => ?_) v
      exact (hn.nested hnode (List.mem_append_right _ hk)).heading
    case distinct => exact hd
    case depth_pos => exact Nat.lt_of_lt_of_le v.height_pos hv
    case here =>
      intro k hcomes
      have hvisit : c.Visits s v p k v p := .nested hcomes
      rcases hcomes.mem with ⟨-, -, hk⟩ | ⟨⟨seg, hseg⟩, -⟩
      · exact ih c hc k v p hvisit (hn.nested hnode (List.mem_append_left _ hk)) hd hv
      · cases hseg
    case below =>
      intro k w seg hcomes level hlevel
      have hvisit : c.Visits s v p k w (p.down seg) := .nested hcomes
      rcases hcomes.mem with ⟨hseg, -⟩ | ⟨-, hw, hk⟩
      · cases hseg
      · have hheight := Json.height_lt_of_mem_parts hw
        exact ih c hc k w (p.down seg) hvisit (hn.nested hnode (List.mem_append_right _ hk))
          (Json.distinct_of_mem_parts hd hw) (by omega)
    case target =>
      intro k n' hk hn' he
      exact ih c hc n' v (p.enter k) (.target hk hn' he) (hs k n' hn') hd hv

end Nodes

/-! ## Validators -/

namespace Validator

/-- A mutating run of a validator on a value that it leaves alone. -/
theorem validateMut_of_still {w : Validator} (hw : w.FillsNothing) {v : Json} (hd : v.distinct)
    (h : w.root.Still w.scope w.changes v {}) : w.validateMut v = some (w.validate v, v) := by
  obtain ⟨hroot, htable⟩ := hw.unfilled
  rw [validateMut, validateMutWithin, h.apply_eq htable hroot hd (w.height_le_depth v)]
  rfl

/-- **Without filtering and defaults** a mutating run leaves every value as it is, and it has the
result of the run that only looks at the value, with the same violations in the same order. -/
theorem validateMut_eq_validate {o : Options} {schema : Json} {w : Validator}
    (hbuild : o.build schema = .ok w) (hfilter : o.filter = false)
    (hdefaults : o.useDefaults = false) {v : Json} (hd : v.distinct) :
    w.validateMut v = some (w.validate v, v) := by
  obtain ⟨-, -, rfl⟩ := Options.build_eq_ok.1 hbuild
  exact validateMut_of_still (.inl ⟨hfilter, hdefaults⟩) hd
    (Node.still_of_not_filter _ hfilter _ v {})

/-- Objects with one member, which has a default. -/
def strict : Json := .object
  [("properties", .object [("a", .object [("default", .bool true)])]),
    ("additionalProperties", .bool false)]

theorem validateMut_eq_validate_strict :
    ∃ w, Options.build { verbose := true } strict = .ok w ∧
      w.isValid (.object [("b", .null)]) = false ∧
        w.validateMut (.object [("b", .null)]) =
          some (w.validate (.object [("b", .null)]), .object [("b", .null)]) := by
  have hrun : ((Options.build { verbose := true } strict).toOption.map fun w =>
      w.isValid (.object [("b", .null)])) = some false := by decide +kernel
  obtain ⟨w, hbuild, hw⟩ := Options.build_of_run hrun
  have hd : (Json.object [("b", .null)]).distinct = true := by decide
  exact ⟨w, hbuild, hw, validateMut_eq_validate hbuild rfl rfl hd⟩

end Validator

end JsonSchema
