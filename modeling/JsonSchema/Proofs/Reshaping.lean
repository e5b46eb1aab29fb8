import JsonSchema.Proofs.Origins
import JsonSchema.Proofs.Trimming

/-!
# What mutating runs may change

A mutating run leaves scalars as they are and containers of their kind, and it keeps the items of
arrays, to which it adds at the end. How it may change the names of an object depends on what is on
and on where the object stands: without filtering names are only added at the end, and without
defaults they are only removed. All this holds whatever the run reports, and of the targets of
references too.

* `Json.Reshaped`: values that differ in this way, with given changes of names;
* `Json.Reshaped.at?`: the values at the same path;
* `Check.admits_reshaping`, `Scope.keeps_reshaping`: the single changes of a check, and runs;
* `Validator.validateMut_reshapes`: what a mutating run may change.
-/

namespace JsonSchema

/-! ## Reshaped values -/

/-- How the names of an object may change, by the path of the object. -/
abbrev NameChanges := Path → List String → List String → Prop

def NameChanges.below (N : NameChanges) (seg : Segment) : NameChanges := fun p => N (seg :: p)

/-- The second value has the scalars of the first one where it has any value in their place, it has
containers of their kinds, and it has at least their items. The names of its objects have changed as
is allowed. -/
inductive Json.Reshaped : NameChanges → Json → Json → Prop
  | refl (N : NameChanges) (v : Json) : Reshaped N v v
  | array {N : NameChanges} {xs ys : List Json} : xs.length ≤ ys.length →
      (∀ (i : Nat) x y, xs[i]? = some x → ys[i]? = some y → Reshaped (N.below (.index i)) x y) →
      Reshaped N (.array xs) (.array ys)
  | object {N : NameChanges} {ms ns : Members} : N [] (ms.map Prod.fst) (ns.map Prod.fst) →
      (∀ name x y, ms.lookup name = some x → ns.lookup name = some y →
        Reshaped (N.below (.name name)) x y) →
      Reshaped N (.object ms) (.object ns)

/-- Changes of names that may be made one after the other, and do not bring back a name that was
taken away. -/
structure NameChanges.Orderly (N : NameChanges) : Prop where
  refl : ∀ p names, N p names names
  trans : ∀ {p a b c}, N p a b → N p b c → N p a c
  between : ∀ {p a b c name}, N p a b → N p b c → name ∈ a → name ∈ c → name ∈ b

theorem NameChanges.Orderly.below {N : NameChanges} (hN : N.Orderly) (seg : Segment) :
    (N.below seg).Orderly where
  refl _ := hN.refl _
  trans := hN.trans
  between := hN.between

namespace Json

def isScalar : Json → Bool
  | array _ | object _ => false
  | _ => true

namespace Reshaped

variable {N : NameChanges} {u v w x y : Json} {seg : Segment} {p : Path}

theorem trans (hN : N.Orderly) (h : Reshaped N u v) (h' : Reshaped N v w) : Reshaped N u w := by
  induction h generalizing w with
  | refl => exact h'
  | @array N xs ys hlen hitems ih =>
    cases h' with
    | refl => exact .array hlen hitems
    | @array _ _ zs hlen' hitems' =>
      refine .array (hlen.trans hlen') fun i x z hx hz => ?_
      obtain ⟨hi, -⟩ := List.getElem?_eq_some_iff.1 hx
      have hy := List.getElem?_eq_getElem (hi.trans_le hlen)
      exact ih i x _ hx hy (hN.below _) (hitems' i _ z hy hz)
  | @object N ms ns hnames hmembers ih =>
    cases h' with
    | refl => exact .object hnames hmembers
    | @object _ _ ls hnames' hmembers' =>
      refine .object (hN.trans hnames hnames') fun name x z hx hz => ?_
      have hname : name ∈ ns.map Prod.fst := by
        refine hN.between hnames hnames' ?_ ?_
        · rw [← Members.lookup_isSome_iff, hx]
          rfl
        · rw [← Members.lookup_isSome_iff, hz]
          rfl
      obtain ⟨y, hy⟩ := Option.isSome_iff_exists.1 ((ns.lookup_isSome_iff name).2 hname)
      exact ih name x y hx hy (hN.below _) (hmembers' name y z hy hz)

theorem child? (h : Reshaped N v w) (hx : v.child? seg = some x) (hy : w.child? seg = some y) :
    Reshaped (N.below seg) x y := by
  cases h with
  | refl =>
    rw [Option.some.inj (hx.symm.trans hy)]
    exact refl _ y
  | array _ hitems =>
    cases seg with
    | name => cases hx
    | index i => exact hitems i x y hx hy
  | object _ hmembers =>
    cases seg with
    | name name => exact hmembers name x y hx hy
    | index => cases hx

/-- The values at the same path are reshaped as is allowed there. -/
theorem at? (h : Reshaped N v w) (hx : v.at? p = some x) (hy : w.at? p = some y) :
    Reshaped (fun q => N (p ++ q)) x y := by
  induction p generalizing N v w with
  | nil =>
    cases hx
    cases hy
    exact h
  | cons seg p ih =>
    obtain ⟨v', hv, hx⟩ := Option.bind_eq_some_iff.1 hx
    obtain ⟨w', hw, hy⟩ := Option.bind_eq_some_iff.1 hy
    exact ih (h.child? hv hw) hx hy

theorem eq_of_isScalar (h : Reshaped N v w) (hv : v.isScalar = true) : w = v := by
  cases h with
  | refl => rfl
  | array => cases hv
  | object => cases hv

end Reshaped

/-- The second value is the first one with items and members added at the ends of its arrays and
objects, at any depth. -/
abbrev ExtendedBy (v w : Json) : Prop := Reshaped (fun _ names names' => names <+: names') v w

theorem ExtendedBy.exists_child? {v w x : Json} {seg : Segment} (h : v.ExtendedBy w)
    (hx : v.child? seg = some x) : ∃ y, w.child? seg = some y ∧ x.ExtendedBy y := by
  obtain ⟨y, hy⟩ : ∃ y, w.child? seg = some y := by
    cases h with
    | refl => exact ⟨x, hx⟩
    | array hlen =>
      cases seg with
      | name => cases hx
      | index i =>
        obtain ⟨hi, -⟩ := List.getElem?_eq_some_iff.1 hx
        exact ⟨_, List.getElem?_eq_getElem (hi.trans_le hlen)⟩
    | @object _ ms ns hnames =>
      cases seg with
      | name name =>
        have hname : name ∈ ms.map Prod.fst := by
          rw [← Members.lookup_isSome_iff]
          exact Option.isSome_of_eq_some hx
        exact Option.isSome_iff_exists.1 ((ns.lookup_isSome_iff name).2 (hnames.subset hname))
      | index => cases hx
  exact ⟨y, hy, h.child? hx hy⟩

theorem ExtendedBy.exists_at? {v w x : Json} {p : Path} (h : v.ExtendedBy w)
    (hx : v.at? p = some x) : ∃ y, w.at? p = some y ∧ x.ExtendedBy y := by
  induction p generalizing v w with
  | nil =>
    cases hx
    exact ⟨w, rfl, h⟩
  | cons seg p ih =>
    obtain ⟨v', hv, hx⟩ := Option.bind_eq_some_iff.1 hx
    obtain ⟨w', hw, hextended⟩ := h.exists_child? hv
    obtain ⟨y, hy, hxy⟩ := ih hextended hx
    exact ⟨y, Option.bind_eq_some_iff.2 ⟨w', hw, hy⟩, hxy⟩

end Json

theorem NameChanges.orderly_prefix :
    NameChanges.Orderly fun _ names names' => names <+: names' where
  refl _ := List.prefix_refl
  trans := List.IsPrefix.trans
  between h _ ha _ := h.subset ha

/-! ## Runs -/

/-- Each step of a check reshapes its value, if the names that it strips and adds may be stripped
and added. -/
theorem Check.admits_reshaping {m : Changes} {c : Check} {N : NameChanges} (hN : N.Orderly)
    (strip : ∀ declared place, c = .closed declared place → m.filter = true →
      ∀ names, N [] names (names.filter declared.has))
    (add : ∀ k name x, c.Fills k (.name name) → k.heading.filling? m = some x →
      ∀ names, name ∉ names → N [] names (names ++ [name])) :
    c.Admits m (Json.Reshaped N) fun seg => Json.Reshaped (N.below seg) where
  refl := .refl N
  trans := .trans hN
  partRefl _ := .refl _
  partTrans := .trans (hN.below _)
  items := by
    intro xs ys h
    have hlength := h.length_eq
    rw [List.length_zipIdx] at hlength
    refine .array hlength.le fun i x y hx hy => ?_
    obtain ⟨hi, rfl⟩ := List.getElem?_eq_some_iff.1 hx
    obtain ⟨hi', rfl⟩ := List.getElem?_eq_some_iff.1 hy
    simpa using h.get (by simpa using hi) hi'
  members := by
    intro ms ns h
    have hnames := map_fst_of_forall₂ (Q := fun name => Json.Reshaped (N.below (.name name))) h
    refine .object (hnames ▸ hN.refl _ _) fun name x y hx hy => ?_
    exact lookup_of_forall₂ (Q := fun name => Json.Reshaped (N.below (.name name))) h hx hy
  replace := by
    intro ms name x y hx h
    refine .object (ms.map_fst_replace name y ▸ hN.refl _ _) fun key x' y' hx' hy' => ?_
    rw [Members.lookup_replace, hx'] at hy'
    split at hy'
    · next hk =>
      subst hk
      cases hy'
      rw [Option.some.inj (hx'.symm.trans hx)]
      exact h
    · rw [Option.some.inj hy']
      exact .refl _ y'
  strip := by
    intro declared place hc hf ms
    have hnames : (ms.filter fun e => declared.has e.1).map Prod.fst =
        (ms.map Prod.fst).filter declared.has := by
      rw [List.filter_map]
      rfl
    refine .object (hnames ▸ strip declared place hc hf _) fun name x y hx hy => ?_
    rw [Members.lookup_filter ms name declared.has, hx] at hy
    split at hy
    · rw [Option.some.inj hy]
      exact .refl _ y
    · cases hy
  append := by
    intro xs k x y _ _ _
    refine .array (by simp) fun i x' y' hx' hy' => ?_
    obtain ⟨hi, -⟩ := List.getElem?_eq_some_iff.1 hx'
    rw [List.getElem?_append_left hi, hx'] at hy'
    rw [Option.some.inj hy']
    exact .refl _ y'
  add := by
    intro ms name k x y hk hnone hx _
    have hnames : (ms ++ [(name, y)]).map Prod.fst = ms.map Prod.fst ++ [name] := List.map_append
    have hnew : name ∉ ms.map Prod.fst := by simp [← Members.lookup_isSome_iff, hnone]
    refine .object (hnames ▸ add k name x hk hx _ hnew) fun key x' y' hx' hy' => ?_
    rw [List.lookup_append, hx'] at hy'
    cases hy'
    exact .refl _ _

/-- Runs of certain nodes reshape values, if their checks strip and add names that may be stripped
and added at the paths of the values. -/
theorem Scope.keeps_reshaping {s : Scope} {m : Changes} {G : Path → Node → Prop} {N : NameChanges}
    (hN : N.Orderly)
    (strip : ∀ {p n declared place}, G p n → .closed declared place ∈ n.checks → m.filter = true →
      ∀ names, N p names (names.filter declared.has))
    (add : ∀ {p n c k name x}, G p n → c ∈ n.checks → c.Fills k (.name name) →
      k.heading.filling? m = some x → ∀ names, name ∉ names → N p names (names ++ [name]))
    (here : ∀ {p n c k}, G p n → c ∈ n.checks → c.Sends k none → G p k)
    (below : ∀ {p n c k seg}, G p n → c ∈ n.checks → c.Sends k (some seg) → G (p ++ [seg]) k)
    (target : ∀ {p n c t k}, G p n → c ∈ n.checks → c.target? = some t →
      s.subroutines.lookup t = some k → G p k) :
    s.Keeps m G fun p => Json.Reshaped fun q => N (p ++ q) := by
  have horderly : ∀ p, NameChanges.Orderly fun q => N (p ++ q) := fun p =>
    ⟨fun q => hN.refl (p ++ q), hN.trans, hN.between⟩
  refine ⟨fun _ => .refl _, .trans (horderly _), fun {p n c} hn hc => ?_, here, below, target⟩
  have hbelow : ∀ seg, NameChanges.below (fun q => N (p ++ q)) seg =
      fun q => N (p ++ [seg] ++ q) := by
    intro seg
    funext q
    rw [NameChanges.below, List.append_assoc, List.singleton_append]
  have hadmits : c.Admits m (Json.Reshaped fun q => N (p ++ q)) fun seg =>
      Json.Reshaped (NameChanges.below (fun q => N (p ++ q)) seg) := by
    refine c.admits_reshaping (horderly p) ?_ ?_
    · rintro declared place rfl hf
      rw [List.append_nil]
      exact strip hn hc hf
    · intro k name x hk hx
      rw [List.append_nil]
      exact add hn hc hk hx
  simpa only [hbelow] using hadmits

/-- **Without filtering, mutating runs only extend values.** -/
theorem Node.apply_extends {s : Scope} {m : Changes} (hf : m.filter = false) (n : Node)
    {depth : Nat} {p : Site} (v : Json) : Leaves (n.apply s m depth v p) v.ExtendedBy := by
  have hkeeps : s.Keeps m (fun _ _ => True) fun _ => Json.ExtendedBy := by
    refine Scope.keeps_reshaping NameChanges.orderly_prefix (fun _ _ hf' => ?_)
      (fun {_ _ _ _ name _} _ _ _ _ names _ => List.prefix_append names [name])
      (fun _ _ _ => True.intro) (fun _ _ _ => True.intro) fun _ _ _ _ => True.intro
    rw [hf] at hf'
    cases hf'
  exact hkeeps.apply_leaves True.intro v

/-! ## Validators -/

namespace Validator

/-- **What a mutating run may change**, with any levels to go down and whatever it reports. Without
filtering it leaves a value that extends the given one: scalars and kinds of containers stay, and
items and members are only added, after those that are there. Where no schema object that is reached
has a default, it leaves a value that is trimmed from the given one: members are only removed. -/
theorem validateMut_reshapes {o : Options} {schema : Json} {w : Validator}
    (hbuild : o.build schema = .ok w) {depth : Nat} {v v' : Json}
    {r : Except (List Violation) Unit} (h : w.validateMutWithin depth v = some (r, v')) :
    (o.filter = false → v.ExtendedBy v') ∧ (NoDefaults schema o → v'.TrimmedFrom v) := by
  obtain ⟨⟨x, t⟩, hrun, hx⟩ := Option.bind_eq_some_iff.1 h
  cases hx
  constructor
  · intro hf
    obtain ⟨-, -, rfl⟩ := Options.build_eq_ok.1 hbuild
    exact Node.apply_extends hf w.root v _ _ _ hrun
  · intro hdefaults
    obtain ⟨hroot, htable⟩ := (hdefaults.fillsNothing hbuild).unfilled
    exact Node.apply_trims htable hroot v _ _ _ hrun

/-- Objects with a member whose schema fills in `b` and wants a number under `c`. -/
def referred : Json := .object
  [("definitions", .object [("d", .object [("properties", .object
      [("b", .object [("default", .number (.integer 5))]),
        ("c", .object [("type", .string "number")])])])]),
    ("properties", .object [("a", .object [("$ref", .string "#/definitions/d")])])]

def numbered : Json := .object
  [("properties", .object
      [("n", .object [("type", .string "number")]), ("a", .object [("$ref", .string "#")])]),
    ("additionalProperties", .bool false)]

theorem exists_error {x : Option (Except (List Violation) Unit × Json)} {v : Json}
    (h : x.map (fun y => (y.1.isOk, y.2)) = some (false, v)) : ∃ vs, x = some (.error vs, v) := by
  obtain ⟨⟨r, v'⟩, rfl, heq⟩ := Option.map_eq_some_iff.1 h
  cases r with
  | ok => cases heq
  | error vs =>
    cases heq
    exact ⟨vs, rfl⟩

/-- In the first run the reference is reported as not matching, and what was filled in behind it
stays. -/
theorem validateMut_reshapes_referred :
    (∃ w vs, Options.build { useDefaults := true } referred = .ok w ∧
      w.validateMut (.object [("a", .object [("c", .null)])]) =
        some (.error vs, .object [("a", .object [("c", .null), ("b", .number (.integer 5))])]) ∧
        (Json.object [("a", .object [("c", .null)])]).ExtendedBy
          (.object [("a", .object [("c", .null), ("b", .number (.integer 5))])])) ∧
      ∃ w vs, Options.build { filter := true } numbered = .ok w ∧
        w.validateMut (.object [("b", .null), ("n", .null), ("a", .object [("b", .null)])]) =
          some (.error vs, .object [("n", .null), ("a", .object [])]) ∧
          (Json.object [("n", .null), ("a", .object [])]).TrimmedFrom
            (.object [("b", .null), ("n", .null), ("a", .object [("b", .null)])]) := by
  have hfill : ((Options.build { useDefaults := true } referred).toOption.map fun w =>
      (w.validateMut (.object [("a", .object [("c", .null)])])).map fun x =>
        (x.1.isOk, x.2)) = some (some (false, .object
          [("a", .object [("c", .null), ("b", .number (.integer 5))])])) := by decide +kernel
  have hstrip : ((Options.build { filter := true } numbered).toOption.map fun w =>
      (w.validateMut (.object [("b", .null), ("n", .null), ("a", .object [("b", .null)])])).map
        fun x => (x.1.isOk, x.2)) =
          some (some (false, .object [("n", .null), ("a", .object [])])) := by decide +kernel
  have hdefaults : NoDefaults numbered { filter := true } :=
    .of_documents (List.forall_mem_singleton.2 (by decide))
  obtain ⟨w, hbuild, hw⟩ := Options.build_of_run hfill
  obtain ⟨u, hbuild', hu⟩ := Options.build_of_run hstrip
  obtain ⟨vs, hrun⟩ := exists_error hw
  obtain ⟨us, hrun'⟩ := exists_error hu
  exact ⟨⟨w, vs, hbuild, hrun, (validateMut_reshapes hbuild hrun).1 rfl⟩,
    u, us, hbuild', hrun', (validateMut_reshapes hbuild' hrun').2 hdefaults⟩

end Validator

end JsonSchema
