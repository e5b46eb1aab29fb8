import JsonSchema.Proofs.Trimming

/-!
# Values that a mutating run leaves alone

A mutating run comes to nested nodes and to targets, on the value and on its parts. It leaves the
value alone if no closed node that it comes to rejects a member. Without its members the value lets
the run come to fewer nodes, so what was left alone stays so when the value is trimmed.

* `Node.due`: the checks that a run comes to on a value;
* `Check.Visits`: the nodes that a check takes a mutating run to;
* `Node.Still`: no member is rejected wherever a mutating run comes;
* `Node.Still.trimmed`: this stays so when the value is trimmed;
* `Node.still_of_not_filter`: it is always so without filtering.
-/

namespace JsonSchema

open Json (TrimmedFrom)

/-! ## Where a run comes -/

/-- The checks that a run comes to on a value. -/
def Node.due (s : Scope) (v : Json) : Node → List Check
  | .mk h head tail =>
    if h.acceptsType v then
      if h.missing v = [] ∨ s.greedy = true then head ++ tail else head
    else []

/-- The check rejects a member of the value. -/
def Check.strips (c : Check) (v : Json) : Bool :=
  match c, v with
  | .closed declared _, .object ms => ms.any fun e => !declared.has e.1
  | _, _ => false

/-- A check takes a mutating run to a nested node or to its target. -/
inductive Check.Visits (s : Scope) (c : Check) (v : Json) (p : Site) : Node → Json → Site → Prop
  | nested {k : Node} {w : Json} {below : Option Segment} : c.Comes v k w below →
      Visits s c v p k w (p.at below)
  | target {k : Target} {n : Node} : c.target? = some k → s.subroutines.lookup k = some n →
      k ∉ p.entered → Visits s c v p n v (p.enter k)

/-- Wherever a mutating run comes from here, no member is rejected that it would remove. -/
inductive Node.Still (s : Scope) (m : Changes) : Node → Json → Site → Prop
  | mk {n : Node} {v : Json} {p : Site} :
      (∀ c ∈ n.due s v, m.filter = true → c.strips v = false) →
      (∀ c ∈ n.due s v, ∀ k w q, c.Visits s v p k w q → Still s m k w q) → Still s m n v p

structure Check.Still (s : Scope) (m : Changes) (c : Check) (v : Json) (p : Site) : Prop where
  keeps : m.filter = true → c.strips v = false
  visits : ∀ k w q, c.Visits s v p k w q → k.Still s m w q

section

variable {s : Scope} {m : Changes} {n : Node} {c : Check} {v w : Json} {p : Site}

theorem Node.still_iff : n.Still s m v p ↔ ∀ c ∈ n.due s v, c.Still s m v p := by
  constructor
  · rintro ⟨hkeeps, hvisits⟩ c hc
    exact ⟨hkeeps c hc, hvisits c hc⟩
  · intro h
    exact .mk (fun c hc => (h c hc).keeps) fun c hc => (h c hc).visits

theorem Node.mem_due_iff {h : Heading} {head tail : List Check} :
    c ∈ (Node.mk h head tail).due s v ↔ h.acceptsType v = true ∧
      (c ∈ head ∨ c ∈ tail ∧ (h.missing v = [] ∨ s.greedy = true)) := by
  rw [due]
  split
  · next ht =>
    split
    · next hm => simp [ht, hm]
    · next hm => simp [ht, hm]
  · next ht => simp [ht]

theorem Node.mem_checks_of_due (h : c ∈ n.due s v) : c ∈ n.checks := by
  obtain ⟨heading, head, tail⟩ := n
  rcases (mem_due_iff.1 h).2 with hc | ⟨hc, -⟩
  · exact List.mem_append_left _ hc
  · exact List.mem_append_right _ hc

/-- A visit stays on the value at a target or a nested node, or it goes to a part. -/
theorem Check.Visits.cases_site {k : Node} {q : Site} (h : c.Visits s v p k w q) :
    (w = v ∧ q = p ∧ k ∈ c.nodesHere) ∨
      (∃ seg, q = p.down seg ∧ w ∈ v.parts ∧ k ∈ c.nodesBelow) ∨
      ∃ j, w = v ∧ q = p.enter j ∧ c.target? = some j ∧ s.subroutines.lookup j = some k ∧
        j ∉ p.entered := by
  cases h with
  | nested hcomes =>
    rcases hcomes.mem with ⟨rfl, rfl, hk⟩ | ⟨⟨seg, rfl⟩, hw, hk⟩
    · exact .inl ⟨rfl, rfl, hk⟩
    · exact .inr (.inl ⟨seg, rfl, hw, hk⟩)
  | target hj hk he => exact .inr (.inr ⟨_, rfl, rfl, hj, hk, he⟩)

/-! ## Without filtering -/

/-- **Where nothing is removed, all values are left alone.** -/
theorem Node.still_of_not_filter (s : Scope) (hm : m.filter = false) (n : Node) (v : Json)
    (p : Site) : n.Still s m v p := by
  have key : (∀ (n : Node) v p, n.Still s m v p) ∧ ∀ (c : Check) v p, c.Still s m v p := by
    apply s.run_induction
    · intro n v p ih
      exact Node.still_iff.2 fun c hc => ih c (Node.mem_checks_of_due hc)
    · intro c v p here below target
      refine ⟨fun hf => absurd (hm.symm.trans hf) (by simp), fun k w q hvisit => ?_⟩
      rcases hvisit.cases_site with ⟨rfl, rfl, hk⟩ | ⟨seg, rfl, hw, hk⟩ | ⟨j, rfl, rfl, hj, hk, he⟩
      · exact here k hk
      · exact below k hk w hw seg
      · exact target j k hj hk he
  exact key.1 n v p

/-! ## Trimmed values -/

/-- A trimmed value lets a run come to fewer checks. -/
theorem Node.due_of_trimmed (h : w.TrimmedFrom v) (hc : c ∈ n.due s w) : c ∈ n.due s v := by
  obtain ⟨heading, head, tail⟩ := n
  obtain ⟨ht, hc⟩ := mem_due_iff.1 hc
  refine mem_due_iff.2 ⟨h.acceptsType heading ▸ ht, hc.imp_right fun hc => ⟨hc.1, ?_⟩⟩
  exact hc.2.imp_left h.missing_eq_nil

theorem Check.strips_of_trimmed (h : w.TrimmedFrom v) (hv : c.strips v = false) :
    c.strips w = false := by
  cases h with
  | refl => exact hv
  | array => cases c <;> rfl
  | object hnames _ =>
    cases c with
    | closed declared place =>
      rw [strips, List.any_eq_false] at hv ⊢
      intro e he
      obtain ⟨f, hf, hname⟩ := List.mem_map.1 (hnames.subset (List.mem_map_of_mem he))
      rw [← hname]
      exact hv f hf
    | _ => rfl

theorem Json.TrimmedFrom.member {ms ns : Members} (h : (Json.object ms).TrimmedFrom (.object ns))
    (hd : (Json.object ms).distinct) {e : String × Json} (he : e ∈ ms) :
    ∃ x, (e.1, x) ∈ ns ∧ e.2.TrimmedFrom x := by
  have hlookup := lookup_eq_some_of_mem (Json.distinct_object.1 hd).1 he
  obtain ⟨x, hx, htrim⟩ := h.lookup hlookup
  exact ⟨x, mem_of_lookup hx, htrim⟩

theorem Check.Comes.trimmed (h : w.TrimmedFrom v) (hd : w.distinct) {k : Node} {x : Json}
    {below : Option Segment} (hx : c.Comes w k x below) :
    ∃ y, c.Comes v k y below ∧ x.TrimmedFrom y := by
  cases hx with
  | dependency he hm =>
    obtain ⟨ns, rfl⟩ := h.exists_object
    exact ⟨_, .dependency he (h.get?_isSome hm), h⟩
  | @additional _ _ ms e he hdeclared =>
    obtain ⟨ns, rfl⟩ := h.exists_object
    obtain ⟨y, hy, hxy⟩ := h.member hd he
    exact ⟨y, .additional (e := (e.1, y)) hy hdeclared, hxy⟩
  | item hx =>
    obtain ⟨ys, rfl⟩ := h.exists_array
    obtain ⟨y, hy, hxy⟩ := h.getElem? hx
    exact ⟨y, .item hy, hxy⟩
  | @pattern _ f ms e hf he ha =>
    obtain ⟨ns, rfl⟩ := h.exists_object
    obtain ⟨y, hy, hxy⟩ := h.member hd he
    exact ⟨y, .pattern (e := (e.1, y)) hf hy ha, hxy⟩
  | member hn => exact ⟨v, .member hn, h⟩
  | tupleItem hn hx =>
    obtain ⟨ys, rfl⟩ := h.exists_array
    obtain ⟨y, hy, hxy⟩ := h.getElem? hx
    exact ⟨y, .tupleItem hn hy, hxy⟩
  | property he hw =>
    obtain ⟨ns, rfl⟩ := h.exists_object
    obtain ⟨y, hy, hxy⟩ := h.lookup hw
    exact ⟨y, .property he hy, hxy⟩
  | itemPast hlimit hx =>
    obtain ⟨ys, rfl⟩ := h.exists_array
    obtain ⟨y, hy, hxy⟩ := h.getElem? hx
    exact ⟨y, .itemPast hlimit hy, hxy⟩

theorem Check.Visits.trimmed (h : w.TrimmedFrom v) (hd : w.distinct) {k : Node} {x : Json}
    {q : Site} (hx : c.Visits s w p k x q) : ∃ y, c.Visits s v p k y q ∧ x.TrimmedFrom y := by
  cases hx with
  | nested hcomes =>
    obtain ⟨y, hy, htrim⟩ := hcomes.trimmed h hd
    exact ⟨y, .nested hy, htrim⟩
  | target hk hn he => exact ⟨v, .target hk hn he, h⟩

theorem Check.Visits.distinct (hd : v.distinct) {k : Node} {x : Json} {q : Site}
    (hx : c.Visits s v p k x q) : x.distinct := by
  rcases hx.cases_site with ⟨rfl, -⟩ | ⟨-, -, hx, -⟩ | ⟨-, rfl, -⟩
  · exact hd
  · exact Json.distinct_of_mem_parts hd hx
  · exact hd

/-- **A value that is left alone is left alone without some of its members.** -/
theorem Node.Still.trimmed (h : n.Still s m v p) (hd : v.distinct) (hw : w.TrimmedFrom v) :
    n.Still s m w p := by
  induction h generalizing w with
  | @mk n v p hkeeps hvisits ih =>
    refine .mk (fun c hc hf => ?_) fun c hc k x q hx => ?_
    · exact Check.strips_of_trimmed hw (hkeeps c (Node.due_of_trimmed hw hc) hf)
    · obtain ⟨y, hy, htrim⟩ := hx.trimmed hw (hw.distinct hd)
      exact ih c (Node.due_of_trimmed hw hc) k y q hy (hy.distinct hd) htrim

theorem Check.Still.trimmed (h : c.Still s m v p) (hd : v.distinct) (hw : w.TrimmedFrom v) :
    c.Still s m w p := by
  refine ⟨fun hf => strips_of_trimmed hw (h.keeps hf), fun k x q hx => ?_⟩
  obtain ⟨y, hy, htrim⟩ := hx.trimmed hw (hw.distinct hd)
  exact (h.visits k y q hy).trimmed (hy.distinct hd) htrim

end

end JsonSchema
