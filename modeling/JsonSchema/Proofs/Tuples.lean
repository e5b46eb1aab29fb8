import JsonSchema.Proofs.Reporting

/-!
# Tuples

A mutating run of a tuple changes the items of an array place by place. Where the array ends and
defaults are filled in, it goes on through the defaults of the next places, up to the first place
that has none. The array that it leaves has no gap.

* `Changer.fillings`: the values that are filled in at the first places of some nodes;
* `Changer.walk`: what a mutating run does when all of its places are filled already;
* `Changer.foldlM_item`: filling in on the way is filling in first;
* `Check.tuple_fills`: what a mutating run of a tuple leaves and reports.
-/

namespace JsonSchema

/-! ## Filling in first -/

namespace Changer

/-- The values that are filled in at the first places, up to one that is left absent. -/
def fillings (m : Changes) : List Node → List Json
  | [] => []
  | k :: ns =>
    match k.heading.filling? m with
    | some v => v :: fillings m ns
    | none => []

variable {M : Type → Type} [Monad M] (W : Changer M) (m : Changes)

/-- Change the items by the nodes of their places, the first of which has the given index. -/
def walk : Nat → List Node → List Json → M (List Json)
  | _, [], xs => return xs
  | i, k :: ns, [] => do
    W.absent k.heading (.index i)
    walk (i + 1) ns []
  | i, k :: ns, x :: xs => do
    let y ← W.visit k x (some (.index i))
    return y :: (← walk (i + 1) ns xs)

theorem foldlM_item_gap [LawfulMonad M] (ns : List Node) {i : Nat} {xs : List Json}
    (hi : xs.length < i) : (ns.zipIdx i).foldlM (fun xs k => W.item m xs k.1 k.2) xs =
      (do return xs ++ (← W.walk i ns [])) := by
  induction ns generalizing i with
  | nil => simp [walk]
  | cons k ns ih =>
    have hitem : W.item m xs k i = (do W.absent k.heading (.index i); return xs) := by
      simp [item, List.getElem?_eq_none (Nat.le_of_lt hi), Nat.ne_of_lt hi]
    rw [List.zipIdx_cons, List.foldlM_cons, hitem, walk]
    simp [ih (Nat.lt_succ_of_lt hi)]

/-- **Filling in on the way is filling in first.** The items before the current place are done. -/
theorem foldlM_item [LawfulMonad M] (ns : List Node) (done xs : List Json) :
    (ns.zipIdx done.length).foldlM (fun xs k => W.item m xs k.1 k.2) (done ++ xs) =
      (do return done ++ (← W.walk done.length ns (xs ++ fillings m (ns.drop xs.length)))) := by
  induction ns generalizing done xs with
  | nil => simp [walk, fillings]
  | cons k ns ih =>
    have hdone : ∀ y, done.length + 1 = (done ++ [y]).length := fun y => by simp
    have hassoc : ∀ (y : Json) zs, done ++ y :: zs = (done ++ [y]) ++ zs := fun y zs => by simp
    rw [List.zipIdx_cons, List.foldlM_cons]
    cases xs with
    | cons x xs =>
      have hitem : W.item m (done ++ x :: xs) k done.length =
          (do return done ++ (← W.visit k x (some (.index done.length))) :: xs) := by
        simp [item]
      rw [hitem]
      simp only [bind_assoc, pure_bind, List.cons_append, List.length_cons, List.drop_succ_cons,
        walk]
      refine congrArg _ (funext fun y => ?_)
      rw [hassoc, hdone y, ih]
      simp
    | nil =>
      simp only [List.append_nil, List.nil_append, List.length_nil, List.drop_zero]
      cases hfill : k.heading.filling? m with
      | some v =>
        have hitem : W.item m done k done.length =
            (do return done ++ [← W.visit k v (some (.index done.length))]) := by
          simp [item, hfill]
        rw [hitem, fillings, hfill]
        simp only [bind_assoc, pure_bind, walk]
        refine congrArg _ (funext fun y => ?_)
        have hrest := ih (done ++ [y]) []
        rw [List.append_nil, ← hdone y] at hrest
        rw [hrest]
        simp
      | none =>
        have hitem : W.item m done k done.length =
            (do W.absent k.heading (.index done.length); return done) := by
          simp [item, hfill]
        rw [hitem, fillings, hfill]
        simp [walk, W.foldlM_item_gap m ns (Nat.lt_succ_self done.length)]

end Changer

/-! ## Runs of defaults -/

/-- How many places from the given one on have defaults, up to the first that has none. -/
def Node.defaultsFrom (ns : List Node) (n : Nat) : Nat :=
  ((ns.drop n).takeWhile fun k => k.heading.default.isSome).length

theorem Node.defaultsFrom_le (ns : List Node) (n : Nat) : defaultsFrom ns n ≤ ns.length - n := by
  rw [← List.length_drop]
  exact (List.takeWhile_sublist _).length_le

namespace Changer

variable {m : Changes} (hm : m.fill = true)
include hm

theorem length_fillings (ns : List Node) :
    (fillings m ns).length = (ns.takeWhile fun k => k.heading.default.isSome).length := by
  induction ns with
  | nil => rfl
  | cons k ns ih =>
    rw [fillings, Heading.filling?, hm, List.takeWhile_cons]
    cases k.heading.default with
    | none => rfl
    | some v => simp [ih]

theorem getElem?_fillings {ns : List Node} {i : Nat} {v : Json}
    (h : (fillings m ns)[i]? = some v) : ∃ k, ns[i]? = some k ∧ k.heading.default = some v := by
  induction ns generalizing i with
  | nil => cases h
  | cons k ns ih =>
    rw [fillings, Heading.filling?, hm, if_pos rfl] at h
    cases hk : k.heading.default with
    | none =>
      rw [hk] at h
      cases h
    | some w =>
      rw [hk] at h
      cases i with
      | zero => exact ⟨k, rfl, hk.trans h⟩
      | succ i => exact ih h

end Changer

/-! ## Place by place -/

section

variable {s : Scope} {m : Changes} {depth : Nat} {h : Heading} {p : Site}

/-- A mutating run of a node ends: it leaves a value and makes certain reports. -/
def Node.ChangesTo (s : Scope) (m : Changes) (depth : Nat) (k : Node) (v : Json) (p : Site)
    (w : Json) (vs : List Violation) : Prop :=
  ∀ t, k.apply s m depth v p t = some (w, t.reportAll vs)

theorem Node.changesTo_of_apply {k : Node} {v w : Json} {t t' : Tally}
    (hrun : k.apply s m depth v p t = some (w, t')) :
    ∃ vs, k.ChangesTo s m depth v p w vs ∧ t' = t.reportAll vs := by
  obtain ⟨vs, hvs, -⟩ := k.apply_reporting s m depth p v t w t' hrun
  have hresult := hrun.symm.trans (hvs t)
  exact ⟨vs, hvs, by simpa using hresult⟩

theorem Node.ChangesTo.within {k : Node} {v w : Json} {vs : List Violation}
    (hk : k.ChangesTo s m depth v p w vs) : ∀ x ∈ vs, x.Within p.path := by
  obtain ⟨ws, hws, hwithin⟩ := k.apply_reporting s m depth p v (.start .verbose) w _ (hk _)
  have hreports := (hk (.start .verbose)).symm.trans (hws _)
  have hrecords := congrArg (fun y => y.map fun y => y.2.records) hreports
  simp only [Option.map_some, Tally.records_reportAll_start, Option.some.injEq] at hrecords
  rwa [hrecords]

/-- What a mutating run of a tuple leaves of some items, and what it reports place by place. The
first place has the given index. -/
structure Check.Walked (s : Scope) (m : Changes) (depth : Nat) (p : Site) (i : Nat)
    (ns : List Node) (xs ys : List Json) (vs : List (List Violation)) : Prop where
  length : ys.length = xs.length
  places : vs.length = ns.length
  present : ∀ j (k : Node) x, ns[j]? = some k → xs[j]? = some x → ∃ y ws, ys[j]? = some y ∧
    vs[j]? = some ws ∧ k.ChangesTo s m depth x (p.down (.index (i + j))) y ws
  absent : ∀ j (k : Node), ns[j]? = some k → xs.length ≤ j →
    vs[j]? = some (k.heading.absentReports (p.down (.index (i + j))))
  rest : ∀ j, ns.length ≤ j → ys[j]? = xs[j]?

namespace Check.Walked

theorem nil (i : Nat) (xs : List Json) : Walked s m depth p i [] xs xs [] where
  length := rfl
  places := rfl
  present := nofun
  absent := nofun
  rest := fun _ _ => rfl

theorem consAbsent {i : Nat} {ns : List Node} {vs : List (List Violation)} (k : Node)
    (h : Walked s m depth p (i + 1) ns [] [] vs) :
    Walked s m depth p i (k :: ns) [] [] (k.heading.absentReports (p.down (.index i)) :: vs) where
  length := rfl
  places := congrArg (· + 1) h.places
  present := nofun
  absent := by
    rintro (_ | j) k' hk hj
    · cases hk
      rfl
    · rw [← Nat.add_assoc, Nat.add_right_comm]
      exact h.absent j k' hk (Nat.zero_le j)
  rest := fun _ _ => rfl

theorem consPresent {i : Nat} {ns : List Node} {xs ys : List Json} {vs : List (List Violation)}
    {k : Node} {x y : Json} {ws : List Violation}
    (hk : k.ChangesTo s m depth x (p.down (.index i)) y ws)
    (h : Walked s m depth p (i + 1) ns xs ys vs) :
    Walked s m depth p i (k :: ns) (x :: xs) (y :: ys) (ws :: vs) where
  length := congrArg (· + 1) h.length
  places := congrArg (· + 1) h.places
  present := by
    rintro (_ | j) k' x' hk' hx'
    · cases hk'
      cases hx'
      exact ⟨y, ws, rfl, rfl, hk⟩
    · rw [← Nat.add_assoc, Nat.add_right_comm]
      exact h.present j k' x' hk' hx'
  absent := by
    rintro (_ | j) k' hk' hj
    · cases hj
    · rw [← Nat.add_assoc, Nat.add_right_comm]
      exact h.absent j k' hk' (Nat.le_of_succ_le_succ hj)
  rest := by
    rintro (_ | j) hj
    · cases hj
    · exact h.rest j (Nat.le_of_succ_le_succ hj)

end Check.Walked

theorem Check.walk_absent (i : Nat) (k : Node) (ns : List Node) (t : Tally) :
    (applying s m (depth + 1) h p).walk i (k :: ns) [] t =
      (applying s m (depth + 1) h p).walk (i + 1) ns []
        (t.reportAll (k.heading.absentReports (p.down (.index i)))) := by
  rw [← k.heading.emits_checkAbsent]
  rfl

theorem Check.walk_present {i : Nat} {k : Node} {x y : Json} {ws : List Violation}
    (hk : k.ChangesTo s m depth x (p.down (.index i)) y ws) (ns : List Node) (xs : List Json)
    (t : Tally) :
    (applying s m (depth + 1) h p).walk i (k :: ns) (x :: xs) t =
      ((applying s m (depth + 1) h p).walk (i + 1) ns xs (t.reportAll ws)).map
        fun z => (y :: z.1, z.2) := by
  show (k.apply s m depth x (p.down (.index i)) t >>= _) = _
  rw [hk t]
  show ((applying s m (depth + 1) h p).walk (i + 1) ns xs (t.reportAll ws)).bind _ = _
  cases (applying s m (depth + 1) h p).walk (i + 1) ns xs (t.reportAll ws) <;> rfl

/-- What a mutating run of a tuple does, it does place by place. -/
theorem Check.walked_of_walk {i : Nat} {ns : List Node} {xs ys : List Json} {t t' : Tally}
    (hrun : (applying s m (depth + 1) h p).walk i ns xs t = some (ys, t')) :
    ∃ vs, Walked s m depth p i ns xs ys vs ∧ t' = t.reportAll vs.flatten := by
  induction ns generalizing i xs ys t with
  | nil =>
    cases hrun
    exact ⟨[], .nil i xs, rfl⟩
  | cons k ns ih =>
    cases xs with
    | nil =>
      rw [walk_absent] at hrun
      obtain ⟨vs, hwalked, rfl⟩ := ih hrun
      obtain rfl : ys = [] := List.eq_nil_of_length_eq_zero hwalked.length
      exact ⟨_, hwalked.consAbsent k, by rw [List.flatten_cons, Tally.reportAll_append]⟩
    | cons x xs =>
      obtain ⟨⟨y, u⟩, hy, -⟩ := Option.bind_eq_some_iff.mp hrun
      obtain ⟨ws, hk, -⟩ := Node.changesTo_of_apply hy
      rw [walk_present hk, Option.map_eq_some_iff] at hrun
      obtain ⟨⟨zs, u⟩, hrun, hresult⟩ := hrun
      cases hresult
      obtain ⟨vs, hwalked, rfl⟩ := ih hrun
      exact ⟨_, hwalked.consPresent hk, by rw [List.flatten_cons, Tally.reportAll_append]⟩

theorem Check.exists_walk {i : Nat} {ns : List Node} {xs : List Json}
    (hends : ∀ j (k : Node) x, ns[j]? = some k → xs[j]? = some x →
      ∃ y ws, k.ChangesTo s m depth x (p.down (.index (i + j))) y ws) (t : Tally) :
    ∃ y, (applying s m (depth + 1) h p).walk i ns xs t = some y := by
  induction ns generalizing i xs t with
  | nil => exact ⟨_, rfl⟩
  | cons k ns ih =>
    cases xs with
    | nil =>
      rw [walk_absent]
      exact ih (fun _ _ _ _ hx => by simp at hx) _
    | cons x xs =>
      obtain ⟨y, ws, hk⟩ := hends 0 k x rfl rfl
      have hrest : ∀ j (k : Node) x, ns[j]? = some k → xs[j]? = some x →
          ∃ y ws, k.ChangesTo s m depth x (p.down (.index (i + 1 + j))) y ws := by
        intro j k x hk hx
        rw [Nat.succ_add_eq_add_succ]
        exact hends (j + 1) k x hk hx
      obtain ⟨z, hz⟩ := ih hrest (t.reportAll ws)
      rw [walk_present (i := i) hk, hz]
      exact ⟨_, rfl⟩

/-! ## Absent places -/

/-- Whether a violation says that the part of a value is missing which is at the path. -/
def Violation.isMissing (path : Path) (x : Violation) : Bool :=
  decide (x.kind = .required ∧ x.path = path)

/-- A violation within a present value does not say that the value is missing. -/
theorem Violation.Within.filter_isMissing {path : Path} {vs : List Violation}
    (h : ∀ x ∈ vs, x.Within path) : vs.filter (isMissing path) = [] :=
  List.filter_eq_nil_iff.2 fun x hx hmissing =>
    (h x hx).present (of_decide_eq_true hmissing).1 (of_decide_eq_true hmissing).2

/-- What is reported of an absent part says that it is missing. -/
theorem Heading.filter_absentReports (h : Heading) (p : Site) :
    (h.absentReports p).filter (Violation.isMissing p.path) =
      if h.required = true ∧ h.default = none then
        [violation h p.path .required none (h.place "required")]
      else [] := by
  have hmissing : Violation.isMissing p.path
      (violation h p.path .required none (h.place "required")) = true :=
    decide_eq_true ⟨rfl, rfl⟩
  simp only [absentReports, Bool.and_eq_true, Option.isNone_iff_eq_none]
  split
  · rw [List.filter_cons_of_pos hmissing, List.filter_nil]
  · rfl

/-- Where only one of some lists has what is looked for, it is found there. -/
theorem filter_flatten_eq {α : Type} {q : α → Bool} {vs : List (List α)} {i : Nat}
    (h : ∀ j ws, vs[j]? = some ws → j ≠ i → ws.filter q = []) :
    vs.flatten.filter q = (vs[i]?.getD []).filter q := by
  induction vs generalizing i with
  | nil => rfl
  | cons ws vs ih =>
    rw [List.flatten_cons, List.filter_append]
    cases i with
    | zero =>
      have hrest : vs.flatten.filter q = [] := by
        rw [List.filter_flatten, List.flatten_eq_nil_iff, List.forall_mem_map]
        intro us hus
        obtain ⟨j, hj⟩ := List.mem_iff_getElem?.1 hus
        exact h (j + 1) us hj (Nat.succ_ne_zero j)
      rw [hrest, List.append_nil]
      rfl
    | succ i =>
      rw [h 0 ws rfl (Nat.succ_ne_zero i).symm, List.nil_append]
      exact ih fun j us hj hne => h (j + 1) us hj fun heq => hne (Nat.succ.inj heq)

namespace Check.Walked

variable {ns : List Node} {xs ys : List Json} {vs : List (List Violation)}

/-- What is reported at a place is of this place or within it. -/
theorem below_place (hwalked : Walked s m depth p 0 ns xs ys vs) {j : Nat} {ws : List Violation}
    (hj : vs[j]? = some ws) : ∀ x ∈ ws, p.path ++ [.index j] <+: x.path := by
  obtain ⟨hlt, -⟩ := List.getElem?_eq_some_iff.1 hj
  rw [hwalked.places] at hlt
  have hk : ns[j]? = some _ := List.getElem?_eq_getElem hlt
  cases hx : xs[j]? with
  | some x =>
    obtain ⟨y, us, -, hus, hchanges⟩ := hwalked.present j _ x hk hx
    cases hj.symm.trans hus
    rw [Nat.zero_add] at hchanges
    exact fun x hx => (hchanges.within x hx).below
  | none =>
    have habsent := hwalked.absent j _ hk (List.getElem?_eq_none_iff.1 hx)
    cases hj.symm.trans habsent
    rw [Nat.zero_add, Heading.absentReports]
    split
    · exact List.forall_mem_singleton.2 (List.prefix_refl _)
    · exact List.forall_mem_nil _

theorem filter_isMissing (hwalked : Walked s m depth p 0 ns xs ys vs) (i : Nat) :
    vs.flatten.filter (Violation.isMissing (p.path ++ [.index i])) =
      (vs[i]?.getD []).filter (Violation.isMissing (p.path ++ [.index i])) := by
  refine filter_flatten_eq fun j ws hj hne => List.filter_eq_nil_iff.2 fun x hx hmissing => hne ?_
  have hbelow := hwalked.below_place hj x hx
  rw [(of_decide_eq_true hmissing).2] at hbelow
  have heq := hbelow.eq_of_length (by simp)
  simpa using heq

end Check.Walked

/-! ## Tuples -/

/-- The array after its defaults have been filled in. -/
def Changer.filledIn (m : Changes) (ns : List Node) (xs : List Json) : List Json :=
  xs ++ fillings m (ns.drop xs.length)

/-- **A mutating run of a tuple** fills in first, and then it changes the items place by place. -/
theorem Check.apply_tuple (ns : List Node) (xs : List Json) (t : Tally) :
    (tuple ns).apply s m (depth + 1) h (.array xs) p t =
      ((applying s m (depth + 1) h p).walk 0 ns (Changer.filledIn m ns xs) t).map
        fun y => (.array y.1, y.2) := by
  have hfold := Changer.foldlM_item (applying s m (depth + 1) h p) m ns [] xs
  rw [List.nil_append, List.length_nil] at hfold
  rw [applying_tuple]
  show ((ns.zipIdx.foldlM _ xs : StateT Tally Option _) t).bind _ = _
  rw [hfold]
  show (((applying s m (depth + 1) h p).walk 0 ns (Changer.filledIn m ns xs) t).bind _).bind _ = _
  cases (applying s m (depth + 1) h p).walk 0 ns (Changer.filledIn m ns xs) t <;> rfl

theorem Changer.filledIn_of_kept {ns : List Node} {xs : List Json} {i : Nat} {x : Json}
    (hx : xs[i]? = some x) : (filledIn m ns xs)[i]? = some x := by
  obtain ⟨hlt, -⟩ := List.getElem?_eq_some_iff.1 hx
  rwa [filledIn, List.getElem?_append_left hlt]

/-- What a mutating run of a tuple leaves of an array where it fills in defaults, and what it
reports place by place. -/
structure Check.LeavesTuple (s : Scope) (m : Changes) (depth : Nat) (p : Site) (ns : List Node)
    (xs ys : List Json) (vs : List (List Violation)) : Prop where
  length : ys.length = xs.length + Node.defaultsFrom ns xs.length
  places : vs.length = ns.length
  /-- The nodes of the first places have changed the items that were there. -/
  kept : ∀ i (k : Node) x, ns[i]? = some k → xs[i]? = some x → ∃ y ws, ys[i]? = some y ∧
    vs[i]? = some ws ∧ k.ChangesTo s m depth x (p.down (.index i)) y ws
  /-- Items past the places are as they were. -/
  rest : ∀ i, ns.length ≤ i → ys[i]? = xs[i]?
  /-- The nodes of the next places have changed their defaults. -/
  filled : ∀ i < Node.defaultsFrom ns xs.length, ∃ (k : Node) (d : Json) (y : Json) (ws : _),
    ns[xs.length + i]? = some k ∧ k.heading.default = some d ∧ ys[xs.length + i]? = some y ∧
      vs[xs.length + i]? = some ws ∧ k.ChangesTo s m depth d (p.down (.index (xs.length + i))) y ws
  absent : ∀ i (k : Node), ns[i]? = some k → xs.length + Node.defaultsFrom ns xs.length ≤ i →
    vs[i]? = some (k.heading.absentReports (p.down (.index i)))
  /-- One report says that a place is missing that was left absent, if its node requires it and has
  no default. -/
  required : ∀ i (k : Node), ns[i]? = some k →
    vs.flatten.filter (Violation.isMissing (p.path ++ [.index i])) =
      if xs.length + Node.defaultsFrom ns xs.length ≤ i ∧ k.heading.required = true ∧
          k.heading.default = none then
        [violation k.heading (p.path ++ [.index i]) .required none (k.heading.place "required")]
      else []
  /-- No report says that a place is missing for which there is no node. -/
  past : ∀ i, ns.length ≤ i → vs.flatten.filter (Violation.isMissing (p.path ++ [.index i])) = []

section

variable (hm : m.fill = true) {ns : List Node} {xs : List Json}
include hm

theorem Changer.length_filledIn :
    (filledIn m ns xs).length = xs.length + Node.defaultsFrom ns xs.length := by
  rw [filledIn, List.length_append, length_fillings hm, Node.defaultsFrom]

theorem Changer.exists_filledIn {i : Nat} (hi : i < Node.defaultsFrom ns xs.length) :
    ∃ (k : Node) (d : Json), ns[xs.length + i]? = some k ∧ k.heading.default = some d ∧
      (filledIn m ns xs)[xs.length + i]? = some d := by
  have hlt : i < (fillings m (ns.drop xs.length)).length := by
    rwa [length_fillings hm, ← Node.defaultsFrom]
  have hd : (fillings m (ns.drop xs.length))[i]? = some _ := List.getElem?_eq_getElem hlt
  obtain ⟨k, hk, hdefault⟩ := getElem?_fillings hm hd
  rw [List.getElem?_drop] at hk
  refine ⟨k, _, hk, hdefault, ?_⟩
  rw [filledIn, List.getElem?_append_right (Nat.le_add_right _ _), Nat.add_sub_cancel_left, hd]

theorem Changer.of_filledIn {j : Nat} {x : Json} (hx : (filledIn m ns xs)[j]? = some x) :
    xs[j]? = some x ∨ ∃ i < Node.defaultsFrom ns xs.length, j = xs.length + i ∧
      ∃ k, ns[j]? = some k ∧ k.heading.default = some x := by
  rcases Nat.lt_or_ge j xs.length with hj | hj
  · rw [filledIn, List.getElem?_append_left hj] at hx
    exact .inl hx
  · obtain ⟨i, rfl⟩ := Nat.exists_eq_add_of_le hj
    obtain ⟨hlt, -⟩ := List.getElem?_eq_some_iff.1 hx
    rw [length_filledIn hm] at hlt
    have hi : i < Node.defaultsFrom ns xs.length := Nat.lt_of_add_lt_add_left hlt
    obtain ⟨k, d, hk, hdefault, hd⟩ := exists_filledIn hm hi
    cases hx.symm.trans hd
    exact .inr ⟨i, hi, rfl, k, hk, hdefault⟩

theorem Changer.filledIn_past {i : Nat} (hi : ns.length ≤ i) :
    (filledIn m ns xs)[i]? = xs[i]? := by
  by_cases hlt : i < xs.length
  · rw [filledIn, List.getElem?_append_left hlt]
  · have hlength : (filledIn m ns xs).length = _ := length_filledIn hm
    have hle := Node.defaultsFrom_le ns xs.length
    rw [List.getElem?_eq_none (by omega), List.getElem?_eq_none (by omega)]

theorem Check.Walked.leavesTuple {ys : List Json} {vs : List (List Violation)}
    (hwalked : Walked s m depth p 0 ns (Changer.filledIn m ns xs) ys vs) :
    LeavesTuple s m depth p ns xs ys vs where
  length := by rw [hwalked.length, Changer.length_filledIn hm]
  places := hwalked.places
  kept := by
    intro i k x hk hx
    have hpresent := hwalked.present i k x hk (Changer.filledIn_of_kept hx)
    rwa [Nat.zero_add] at hpresent
  rest := fun i hi => by rw [hwalked.rest i hi, Changer.filledIn_past hm hi]
  filled := by
    intro i hi
    obtain ⟨k, d, hk, hdefault, hd⟩ := Changer.exists_filledIn hm hi
    obtain ⟨y, ws, hy, hws, hchanges⟩ := hwalked.present _ k d hk hd
    rw [Nat.zero_add] at hchanges
    exact ⟨k, d, y, ws, hk, hdefault, hy, hws, hchanges⟩
  absent := by
    intro i k hk hi
    rw [← Changer.length_filledIn hm] at hi
    have habsent := hwalked.absent i k hk hi
    rwa [Nat.zero_add] at habsent
  required := by
    intro i k hk
    rw [hwalked.filter_isMissing, ← Changer.length_filledIn hm]
    by_cases hi : (Changer.filledIn m ns xs).length ≤ i
    · have habsent := k.heading.filter_absentReports (p.down (.index i))
      rw [hwalked.absent i k hk hi, Nat.zero_add]
      simp only [hi, true_and]
      exact habsent
    · have hx := List.getElem?_eq_getElem (Nat.not_le.1 hi)
      obtain ⟨y, ws, -, hws, hchanges⟩ := hwalked.present i k _ hk hx
      rw [Nat.zero_add] at hchanges
      rw [hws, if_neg fun h => hi h.1]
      exact Violation.Within.filter_isMissing hchanges.within
  past := by
    intro i hi
    rw [hwalked.filter_isMissing, List.getElem?_eq_none (hwalked.places ▸ hi)]
    rfl

/-- **A mutating run of a tuple fills in one run of defaults**, without a gap. It ends if the runs
of all places end that have an item or are filled in. It leaves the items as their nodes leave them,
then the defaults as their nodes leave them, and it reports places that are missing exactly where
they stay absent, are required and have no default. -/
theorem Check.tuple_fills (s : Scope) (depth : Nat) (h : Heading) (p : Site) (ns : List Node)
    (xs : List Json) (t : Tally) :
    ((∃ y, (tuple ns).apply s m (depth + 1) h (.array xs) p t = some y) ↔
      (∀ i (k : Node) x, ns[i]? = some k → xs[i]? = some x →
        ∃ y ws, k.ChangesTo s m depth x (p.down (.index i)) y ws) ∧
      ∀ i < Node.defaultsFrom ns xs.length, ∀ (k : Node) d, ns[xs.length + i]? = some k →
        k.heading.default = some d →
          ∃ y ws, k.ChangesTo s m depth d (p.down (.index (xs.length + i))) y ws) ∧
    ∀ v t', (tuple ns).apply s m (depth + 1) h (.array xs) p t = some (v, t') →
      ∃ ys vs, v = .array ys ∧ t' = t.reportAll vs.flatten ∧
        LeavesTuple s m depth p ns xs ys vs := by
  have hleaves : ∀ v t', (tuple ns).apply s m (depth + 1) h (.array xs) p t = some (v, t') →
      ∃ ys vs, v = .array ys ∧ t' = t.reportAll vs.flatten ∧
        LeavesTuple s m depth p ns xs ys vs := by
    intro v t' hrun
    rw [apply_tuple, Option.map_eq_some_iff] at hrun
    obtain ⟨⟨ys, u⟩, hwalk, hresult⟩ := hrun
    cases hresult
    obtain ⟨vs, hwalked, hreports⟩ := walked_of_walk hwalk
    exact ⟨ys, vs, rfl, hreports, hwalked.leavesTuple hm⟩
  refine ⟨⟨?_, ?_⟩, hleaves⟩
  · rintro ⟨⟨v, t'⟩, hrun⟩
    obtain ⟨ys, vs, -, -, htuple⟩ := hleaves v t' hrun
    constructor
    · intro i k x hk hx
      obtain ⟨y, ws, -, -, hends⟩ := htuple.kept i k x hk hx
      exact ⟨y, ws, hends⟩
    · intro i hi k d hk hd
      obtain ⟨k', d', y, ws, hk', hd', -, -, hends⟩ := htuple.filled i hi
      cases hk.symm.trans hk'
      cases hd.symm.trans hd'
      exact ⟨y, ws, hends⟩
  · rintro ⟨hkept, hfilled⟩
    have hends : ∀ j (k : Node) x, ns[j]? = some k → (Changer.filledIn m ns xs)[j]? = some x →
        ∃ y ws, k.ChangesTo s m depth x (p.down (.index (0 + j))) y ws := by
      intro j k x hk hx
      rw [Nat.zero_add]
      rcases Changer.of_filledIn hm hx with hx | ⟨i, hi, rfl, k', hk', hdefault⟩
      · exact hkept j k x hk hx
      · cases hk.symm.trans hk'
        exact hfilled i hi k x hk hdefault
    obtain ⟨y, hwalk⟩ := exists_walk (h := h) hends t
    rw [apply_tuple, hwalk]
    exact ⟨_, rfl⟩

end

end

/-- Five places: the second and the third have defaults, of which one is filled in itself, the
fourth is required, and the fifth has a default behind the gap. -/
def Node.gapped : List Node :=
  let filled (v : Json) (cs : List Check) : Node := .mk { location := [], default := some v } [] cs
  [.trivial [], filled (.bool true) [],
    filled (.object []) [.properties [("a", filled .null [])] false],
    .mk { location := [], required := true } [] [], filled (.bool false) []]

theorem Check.tuple_fills_gapped :
    ∃ (ys : List Json) (vs : List (List Violation)),
      (tuple Node.gapped).apply ⟨[], false⟩ ⟨false, true⟩ 2 { location := [] }
          (.array [.string "x"]) {} (.start .verbose) =
        some (.array ys, (Tally.start .verbose).reportAll vs.flatten) ∧
      ys = [.string "x", .bool true, .object [("a", .null)]] ∧
        ys.length = 1 + Node.defaultsFrom Node.gapped 1 ∧
          vs.flatten.filter (Violation.isMissing [.index 3]) =
            [violation { location := [], required := true } [.index 3] .required none
              [.name "required"]] := by
  have hrun : ((tuple Node.gapped).apply ⟨[], false⟩ ⟨false, true⟩ 2 { location := [] }
      (.array [.string "x"]) {} (.start .verbose)).map Prod.fst =
        some (.array [.string "x", .bool true, .object [("a", .null)]]) := by decide +kernel
  obtain ⟨⟨v, t'⟩, happly, rfl⟩ := Option.map_eq_some_iff.1 hrun
  obtain ⟨-, hleaves⟩ := tuple_fills (m := ⟨false, true⟩) rfl ⟨[], false⟩ 1 { location := [] } {}
    Node.gapped [.string "x"] (.start .verbose)
  obtain ⟨ys, vs, hys, rfl, htuple⟩ := hleaves _ _ happly
  cases hys
  refine ⟨_, vs, happly, rfl, htuple.length, ?_⟩
  exact (htuple.required 3 _ rfl).trans rfl

end JsonSchema
