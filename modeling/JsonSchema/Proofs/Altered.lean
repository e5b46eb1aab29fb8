import JsonSchema.Proofs.Overwriting
import JsonSchema.Proofs.Places
import JsonSchema.Proofs.Reporting

/-!
# What a run has altered

A run that never refills what it strips goes one way: a name that is gone does not come back, one
that was added stays, and what is given back in the end is the value itself. So what differs between
the value at some point of a run and the value that the run leaves differs from the start on.

* `NameChanges.Directed`: changes of names that go one way;
* `Json.Reshaped.antisymm`: values that are reshaped into each other are the same;
* `Json.Altered`: the paths at which, or on the way to which, two values differ;
* `Json.Altered.widen`: what differs from a value on the way differs from the first one.
-/

namespace JsonSchema

/-! ## Changes that go one way -/

/-- Orderly changes that keep the names which they add, and that cannot be undone. -/
structure NameChanges.Directed (N : NameChanges) : Prop extends N.Orderly where
  stays : ∀ {p a b c name}, N p a b → N p b c → name ∉ a → name ∈ b → name ∈ c
  antisymm : ∀ {p a b}, N p a b → N p b a → a = b

namespace NameChanges

variable {N : NameChanges}

/-- The changes under a path. -/
def under (N : NameChanges) (path : Path) : NameChanges := fun q => N (path ++ q)

theorem below_under (N : NameChanges) (path : Path) (seg : Segment) :
    (N.under path).below seg = N.under (path ++ [seg]) := by
  funext q
  simp [below, under]

theorem Directed.under (hN : N.Directed) (path : Path) : (N.under path).Directed where
  toOrderly := ⟨fun _ => hN.refl _, hN.trans, hN.between⟩
  stays := hN.stays
  antisymm := hN.antisymm

theorem Directed.below (hN : N.Directed) (seg : Segment) : (N.below seg).Directed :=
  hN.under [seg]

theorem directed_exchange {lost gained : Path → String → Prop}
    (h : ∀ p name, lost p name → ¬gained p name) : (exchange lost gained).inOrder.Directed where
  toOrderly := (orderly_exchange h).inOrder
  stays := by
    rintro p a b c name ⟨⟨-, hgained⟩, -⟩ ⟨⟨hlost, -⟩, -⟩ ha hb
    by_contra hc
    exact h p name (hlost name hb hc) (hgained name hb ha)
  antisymm := by
    rintro p a b ⟨⟨hlost, hgained⟩, horder⟩ ⟨⟨hlost', hgained'⟩, -⟩
    have hab : ∀ name ∈ a, name ∈ b := by
      intro name ha
      by_contra hb
      exact h p name (hlost name ha hb) (hgained' name ha hb)
    have hba : ∀ name ∈ b, name ∈ a := by
      intro name hb
      by_contra ha
      exact h p name (hlost' name hb ha) (hgained name hb ha)
    rwa [List.filter_eq_self.2 (by simpa using hab), List.filter_eq_self.2 (by simpa using hba)]
      at horder

end NameChanges

/-! ## Values that are reshaped one way -/

/-- Objects with distinct names are the same if they have the same names, in this order, and the
same members. -/
theorem Members.eq_of_lookup {ms ns : Members} (hms : (ms.map Prod.fst).Nodup)
    (hnames : ms.map Prod.fst = ns.map Prod.fst)
    (h : ∀ name x y, ms.lookup name = some x → ns.lookup name = some y → x = y) : ms = ns := by
  have hlength : ms.length = ns.length := by simpa using congrArg List.length hnames
  refine List.ext_getElem hlength fun i hi hi' => ?_
  have hname : ms[i].1 = ns[i].1 := by
    have hget : (ms.map Prod.fst)[i]? = (ns.map Prod.fst)[i]? := by rw [hnames]
    simpa [hi, hi'] using hget
  have hx : ms.lookup ms[i].1 = some ms[i].2 := lookup_eq_some_of_mem hms (List.getElem_mem hi)
  have hy : ns.lookup ns[i].1 = some ns[i].2 :=
    lookup_eq_some_of_mem (hnames ▸ hms) (List.getElem_mem hi')
  rw [← hname] at hy
  exact Prod.ext hname (h _ _ _ hx hy)

namespace Json.Reshaped

variable {N : NameChanges} {u v w x y : Json}

theorem exists_object {ms : Members} (h : Reshaped N (.object ms) w) : ∃ ns, w = .object ns := by
  cases h with
  | refl => exact ⟨ms, rfl⟩
  | @object _ _ ns => exact ⟨ns, rfl⟩

theorem exists_array {xs : List Json} (h : Reshaped N (.array xs) w) : ∃ ys, w = .array ys := by
  cases h with
  | refl => exact ⟨xs, rfl⟩
  | @array _ _ ys => exact ⟨ys, rfl⟩

theorem acceptsType (h : Reshaped N v w) (heading : Heading) :
    heading.acceptsType w = heading.acceptsType v := by
  have htypes : ∀ t : TypeName, t.holds w = t.holds v := by
    intro t
    cases h <;> cases t <;> rfl
  simp only [Heading.acceptsType, TypeSet.holds, htypes]

/-- A part that is there, or is not there, at both ends is so on the way. -/
theorem isSome_child? (hN : N.Directed) (h : Reshaped N u v) (h' : Reshaped N v w) (seg : Segment)
    (huw : (u.child? seg).isSome = (w.child? seg).isSome) :
    (v.child? seg).isSome = (w.child? seg).isSome := by
  cases h with
  | refl => exact huw
  | @array _ xs ys hlen =>
    cases h' with
    | refl => rfl
    | @array _ _ zs hlen' =>
      cases seg with
      | name => rfl
      | index i =>
        rw [Bool.eq_iff_iff] at huw ⊢
        simp only [Json.child?, Option.isSome_iff_ne_none, ne_eq,
          List.getElem?_eq_none_iff] at huw ⊢
        omega
  | @object _ ms ns hnames =>
    cases h' with
    | refl => rfl
    | @object _ _ ls hnames' =>
      cases seg with
      | index => rfl
      | name name =>
        rw [Bool.eq_iff_iff] at huw ⊢
        simp only [Json.child?, Members.lookup_isSome_iff] at huw ⊢
        constructor
        · intro hmem
          by_cases hu : name ∈ ms.map Prod.fst
          · exact huw.1 hu
          · exact hN.stays hnames hnames' hu hmem
        · intro hmem
          exact hN.between hnames hnames' (huw.2 hmem) hmem

/-- **Values that are reshaped into each other are the same.** -/
theorem antisymm (hN : N.Directed) (h : Reshaped N v w) (h' : Reshaped N w v) (hv : v.distinct)
    (hw : w.distinct) : v = w := by
  induction h with
  | refl => rfl
  | @array N xs ys hlen hitems ih =>
    have hlen' : ys.length ≤ xs.length := by
      cases h' with
      | refl => rfl
      | array hlen' => exact hlen'
    refine congrArg Json.array (List.ext_getElem (Nat.le_antisymm hlen hlen') fun i hi hi' => ?_)
    have hx : (Json.array xs).child? (.index i) = some xs[i] := List.getElem?_eq_getElem hi
    have hy : (Json.array ys).child? (.index i) = some ys[i] := List.getElem?_eq_getElem hi'
    have hback := h'.child? hy hx
    exact ih i _ _ hx hy (hN.below _) hback (distinct_array.1 hv _ (List.getElem_mem hi))
      (distinct_array.1 hw _ (List.getElem_mem hi'))
  | @object N ms ns hnames hmembers ih =>
    have hnames' : ms.map Prod.fst = ns.map Prod.fst := by
      cases h' with
      | refl => rfl
      | object hnames' => exact hN.antisymm hnames hnames'
    have hms := distinct_object.1 hv
    have hns := distinct_object.1 hw
    refine congrArg Json.object (Members.eq_of_lookup hms.1 hnames' fun name x y hx hy => ?_)
    have hx' : (Json.object ms).child? (.name name) = some x := hx
    have hy' : (Json.object ns).child? (.name name) = some y := hy
    have hback := h'.child? hy' hx'
    exact ih name x y hx hy (hN.below _) hback (hms.2 _ (mem_of_lookup hx))
      (hns.2 _ (mem_of_lookup hy))

end Json.Reshaped

/-! ## Altered paths -/

/-- At the path stands another value, or a part on the way to it came or went, or an object on the
way got a member of a certain name. -/
inductive Json.Altered : (Path → String → Prop) → Json → Json → Path → Prop
  | value {T : Path → String → Prop} {v w : Json} : v ≠ w → Altered T v w []
  | part {T : Path → String → Prop} {v w : Json} {seg : Segment} {q : Path} :
      (v.child? seg).isSome ≠ (w.child? seg).isSome → Altered T v w (seg :: q)
  | member {T : Path → String → Prop} {v w : Json} {name : String} {q : Path} : T [] name →
      v.child? (.name name) = none → (w.child? (.name name)).isSome → Altered T v w q
  | within {T : Path → String → Prop} {v w x y : Json} {seg : Segment} {q : Path} :
      v.child? seg = some x → w.child? seg = some y → Altered (fun r => T (seg :: r)) x y q →
      Altered T v w (seg :: q)

namespace Json.Altered

variable {T : Path → String → Prop} {N : NameChanges} {u v w : Json} {q : Path}

theorem ne (h : Altered T v w q) : v ≠ w := by
  induction h with
  | value hne => exact hne
  | part hpart =>
    rintro rfl
    exact hpart rfl
  | member _ hv hw =>
    rintro rfl
    rw [hv] at hw
    cases hw
  | within hx hy _ ih =>
    rintro rfl
    exact ih (Option.some.inj (hx.symm.trans hy))

/-- **What differs from a value on the way differs from the first one.** -/
theorem widen (hN : N.Directed) (h : Altered T v w q) (huv : Reshaped N u v)
    (hvw : Reshaped N v w) (hv : v.distinct) (hw : w.distinct) : Altered T u w q := by
  induction h generalizing N u with
  | value hne =>
    refine value fun huw => hne ?_
    subst huw
    exact hvw.antisymm hN huv hv hw
  | part hpart => exact part fun huw => hpart (huv.isSome_child? hN hvw _ huw)
  | @member T v w name q hname hnone hsome =>
    refine member hname ?_ hsome
    by_contra hu
    have hsame : (u.child? (.name name)).isSome = (w.child? (.name name)).isSome := by
      rw [hsome, Option.isSome_iff_ne_none]
      exact hu
    have hboth := huv.isSome_child? hN hvw _ hsame
    rw [hnone, hsome] at hboth
    cases hboth
  | @within T v w x y seg q hx hy _ ih =>
    cases hz : u.child? seg with
    | none => exact part (by simp [hz, hy])
    | some z =>
      exact within hz hy (ih (hN.below seg) (huv.child? hz hx) (hvw.child? hx hy)
        ((child?_inside hx).distinct hv) ((child?_inside hy).distinct hw))

end Json.Altered

/-! ## Altered violations -/

/-- The path of a violation leads from a path along one at which two values differ. -/
def Violation.AlteredFrom (T : Path → String → Prop) (path : Path) (v w : Json) (x : Violation) :
    Prop :=
  ∃ q, x.path = path ++ q ∧ v.Altered (fun r => T (path ++ r)) w q

namespace Violation.AlteredFrom

variable {T : Path → String → Prop} {N : NameChanges} {path : Path} {u v w y z : Json}
  {x : Violation} {seg : Segment}

theorem widen (hN : N.Directed) (h : x.AlteredFrom T path v w)
    (huv : u.Reshaped (N.under path) v) (hvw : v.Reshaped (N.under path) w) (hv : v.distinct)
    (hw : w.distinct) : x.AlteredFrom T path u w := by
  obtain ⟨q, hq, h⟩ := h
  exact ⟨q, hq, h.widen (hN.under path) huv hvw hv hw⟩

theorem value (hx : x.path = path) (h : v ≠ w) : x.AlteredFrom T path v w :=
  ⟨[], by rw [hx, List.append_nil], .value h⟩

theorem part (hx : path ++ [seg] <+: x.path) (h : (v.child? seg).isSome ≠ (w.child? seg).isSome) :
    x.AlteredFrom T path v w := by
  obtain ⟨q, hq⟩ := hx
  exact ⟨seg :: q, by simp [← hq], .part h⟩

theorem member {name : String} (hx : path <+: x.path) (hname : T path name)
    (hv : v.child? (.name name) = none) (hw : (w.child? (.name name)).isSome) :
    x.AlteredFrom T path v w := by
  obtain ⟨q, hq⟩ := hx
  exact ⟨q, hq.symm, .member (by rwa [List.append_nil]) hv hw⟩

theorem below (hy : v.child? seg = some y) (hz : w.child? seg = some z)
    (h : x.AlteredFrom T (path ++ [seg]) y z) : x.AlteredFrom T path v w := by
  obtain ⟨q, hq, h⟩ := h
  simp only [List.append_assoc, List.singleton_append] at hq h
  exact ⟨seg :: q, hq, .within hy hz h⟩

end Violation.AlteredFrom

end JsonSchema
