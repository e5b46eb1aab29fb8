import JsonSchema.Proofs.Quieting

/-!
# Nodes that divide a value

A node divides a value if each part of the value is changed by one of its checks only, with one
nested node, and if the nested nodes do the same with the parts. A mutating run of such a node ends
when it may go down as far as the nodes do, and a second run has nothing to do on what it leaves:
defaults that were filled in are filled in and stripped themselves, and no later check comes to them.

* `Node.Divided`: a node that divides every value, by the levels of its nested nodes;
* `Node.Divided.terminates`: its mutating runs end;
* `Node.Divided.rests_after`: what they leave, they leave alone.
-/

namespace JsonSchema

/-- Every part of a value is changed by one check only, with one nested node that does the same. The
defaults that are filled in have distinct names. -/
inductive Node.Divided : Nat → Node → Prop
  | mk {levels : Nat} {n : Node} : (∀ c ∈ n.checks, c.Parting) →
      (∀ c ∈ n.checks, ∀ d ∈ n.checks, ∀ seg, c.Covers seg → d.Covers seg → c = d) →
      (∀ c ∈ n.checks, ∀ k seg, c.Sends k (some seg) → Divided levels k) →
      (∀ c ∈ n.checks, ∀ k seg x, c.Sends k (some seg) → k.heading.default = some x → x.distinct) →
      Divided (levels + 1) n

theorem Node.Divided.mono {n : Node} {levels levels' : Nat} (h : n.Divided levels)
    (hle : levels ≤ levels') : n.Divided levels' := by
  induction h generalizing levels' with
  | mk hparting hone hnested hdefault ih =>
    obtain ⟨levels', rfl⟩ : ∃ l, levels' = l + 1 := ⟨levels' - 1, by omega⟩
    exact .mk hparting hone (fun c hc k seg hk => ih c hc k seg hk (Nat.le_of_succ_le_succ hle))
      hdefault

namespace Node.Divided

variable {n : Node} {levels : Nat} (h : n.Divided levels) {c d : Check} (hc : c ∈ n.checks)
include h hc

theorem parting : c.Parting := by
  cases h with
  | mk hparting => exact hparting c hc

theorem eq_of_covers (hd : d ∈ n.checks) {seg : Segment} (hcs : c.Covers seg)
    (hds : d.Covers seg) : c = d := by
  cases h with
  | mk _ hone => exact hone c hc d hd seg hcs hds

theorem nested {k : Node} {seg : Segment} (hk : c.Sends k (some seg)) :
    k.Divided (levels - 1) := by
  cases h with
  | mk _ _ hnested => exact hnested c hc k seg hk

end Node.Divided

theorem Heading.default_of_filling? {h : Heading} {m : Changes} {x : Json}
    (hx : h.filling? m = some x) : h.default = some x := by
  rw [filling?] at hx
  split at hx
  · exact hx
  · cases hx

/-! ## Termination -/

/-- Steps that have a result from every state. -/
def ending (σ : Type) : Alike (StateT σ Option) (StateT σ Option) where
  results := True
  rel f _ := ∀ t, ∃ a t', f t = some (a, t')
  pure _ t := ⟨_, t, rfl⟩
  bind := by
    intro α β x _ f _ hx hf t
    obtain ⟨a, u, ha⟩ := hx t
    obtain ⟨b, t', hb⟩ := hf a a (fun _ => rfl) u
    exact ⟨b, t', Option.bind_eq_some_iff.mpr ⟨(a, u), ha, hb⟩⟩

section

variable {s : Scope} {m : Changes} {n : Node} {levels depth : Nat} {p : Site} {v : Json}

/-- **A mutating run of a node that divides values ends**, on any value, when it may go down as far
as the nested nodes do. -/
theorem Node.Divided.terminates (h : n.Divided levels) (hl : levels ≤ depth) :
    ∀ v t, ∃ w t', n.apply s m depth v p t = some (w, t') := by
  induction h generalizing depth p with
  | @mk levels n hparting hone hnested hdefault ih =>
    obtain ⟨depth, rfl⟩ : ∃ d, depth = d + 1 := ⟨depth - 1, by omega⟩
    intro v
    rw [funext (n.apply_eq s m (depth + 1) p v)]
    show (ending Tally).rel _ (n.changing s.greedy
      ((Check.applying s m (depth + 1) n.heading p).check m) (fun _ _ => none) (fun _ _ => none) v)
    refine (ending Tally).changing True.intro (fun c hc v => ?_) (fun v t => ⟨_, _, rfl⟩)
      (fun v t => ⟨_, _, rfl⟩) v
    have hchangers : (ending Tally).Changers (Check.applying s m (depth + 1) n.heading p)
        (Check.applying s m (depth + 1) n.heading p) c := by
      constructor
      case here => exact fun k hk => absurd hk ((hparting c hc).here k)
      case below => exact fun k seg hk v => ih c hc k seg hk (Nat.le_of_succ_le_succ hl) v
      case reference =>
        rintro text place rfl
        cases (hparting _ hc).target
      case schemaFormat =>
        rintro name rfl
        cases (hparting _ hc).target
      case look => exact fun v t => ⟨_, _, rfl⟩
      case names => exact fun names place v t => ⟨_, _, rfl⟩
      case absent => exact fun h seg t => ⟨_, _, rfl⟩
      case down => exact fun t => ⟨_, _, rfl⟩
    exact hchangers.check True.intro m v

/-! ## What a run leaves -/

/-- A part that a nested node leaves alone, when the run may go down to a depth. -/
def Node.RestsAt (s : Scope) (m : Changes) (depth : Nat) (p : Site) (k : Node) (seg : Segment)
    (x : Json) : Prop :=
  ∀ level, depth = level + 1 → Rests (k.apply s m level x (p.down seg)) x (k.check s x (p.down seg))

theorem Check.Parting.rests {c : Check} (hc : c.Parting) {h : Heading} (hdepth : 0 < depth)
    (hd : v.distinct) (hv : c.Quiet m (Node.RestsAt s m depth p) v) :
    Rests (c.apply s m depth h v p) v (c.check s h v p) := by
  refine Check.rests ⟨hv.keeps, hv.full, hd, hdepth, fun k hk => ?_, hv.below, fun k n hk => ?_⟩
  · exact absurd hk.sends (hc.here k)
  · rw [hc.target] at hk
    cases hk

/-- A check of a node that divides values achieves what it is there for, and it undoes nothing that
another check of the node has achieved. -/
theorem Check.quiets_apply {c : Check} {Q : Node → Segment → Json → Prop} {h : Heading}
    (hparting : c.Parting)
    (hone : ∀ d ∈ n.checks, ∀ seg, c.Covers seg → d.Covers seg → c = d)
    (hfills : ∀ k seg x, c.Fills k seg → k.heading.filling? m = some x → x.distinct)
    (hvisit : ∀ k seg, c.Sends k (some seg) → ∀ level, depth = level + 1 → ∀ x, x.distinct →
      Leaves (k.apply s m level x (p.down seg)) fun y => y.distinct ∧ Q k seg y)
    (hd : v.distinct) :
    Leaves (c.apply s m depth h v p) fun w => w.distinct ∧ c.Quiet m Q w ∧
      ∀ d ∈ n.checks, d.Quiet m Q v → d.Quiet m Q w := by
  have hquiets : c.Quiets m (applying s m depth h p) Q := by
    refine ⟨hparting, hfills, fun k seg hk x hx => ?_⟩
    cases depth with
    | zero =>
      intro t y t' ht
      cases ht
    | succ depth => exact hvisit k seg hk depth rfl x hx
  have hdistinct : Leaves (c.apply s m depth h v p) fun w => v.distinct → w.distinct := by
    refine Check.leaves_of_visits (admits_distinct hfills) (fun k hk => ?_)
      (fun k seg hk level hl x t y t' ht hx => ?_) (fun k k' hk => ?_) v
    · exact absurd hk (hparting.here k)
    · exact (hvisit k seg hk level hl x hx t y t' ht).1
    · rw [hparting.target] at hk
      cases hk
  intro t w t' ht
  have hw := hdistinct t w t' ht hd
  have hagrees := Check.apply_agrees hparting.target hparting.here v t w t' ht
  have hquiet : c.Quiet m Q w := by
    rw [Check.apply_eq] at ht
    exact Changer.check_quiets hquiets hd t w t' ht
  refine ⟨hw, hquiet, fun d hd hdv => ?_⟩
  by_cases hcd : c = d
  · exact hcd ▸ hquiet
  · exact hdv.agrees (hagrees.mono fun seg hseg hcovers => hcd (hone d hd seg hcovers hseg)) hw

/-- A node whose checks achieve what they are there for, and undo nothing of it, leaves a value on
which its next run rests: that run comes to fewer checks or to the same. -/
theorem Node.rests_of_quiets {depth' : Nat} (hdepth : 0 < depth')
    (hparting : ∀ c ∈ n.checks, c.Parting)
    (hstep : ∀ c ∈ n.checks, ∀ v : Json, v.distinct →
      Leaves (c.apply s m depth n.heading v p) fun w => w.distinct ∧
        c.Quiet m (RestsAt s m depth' p) w ∧ ∀ d ∈ n.checks,
          d.Quiet m (RestsAt s m depth' p) v → d.Quiet m (RestsAt s m depth' p) w)
    (hd : v.distinct) :
    Leaves (n.apply s m depth v p) fun w =>
      w.distinct ∧ Rests (n.apply s m depth' w p) w (n.check s w p) := by
  have hrests : ∀ w : Json, w.distinct →
      (∀ c ∈ n.due s w, c.Quiet m (RestsAt s m depth' p) w) →
        w.distinct ∧ Rests (n.apply s m depth' w p) w (n.check s w p) := by
    refine fun w hw hquiet => ⟨hw, rests_mk fun c hdue _ => ?_⟩
    exact (hparting c (mem_checks_of_due hdue)).rests hdepth hw (hquiet c hdue)
  obtain ⟨h, head, tail⟩ := n
  have hrun : ∀ cs done : List Check, cs ⊆ (mk h head tail).checks →
      done ⊆ (mk h head tail).checks → ∀ v : Json, v.distinct →
        (∀ c ∈ done, c.Quiet m (RestsAt s m depth' p) v) →
          Leaves (cs.foldlM (fun v c => (Check.applying s m depth h p).check m c v) v) fun w =>
            (w.distinct ∧ ∀ c ∈ done, c.Quiet m (RestsAt s m depth' p) w) ∧
              ∀ c ∈ cs, c.Quiet m (RestsAt s m depth' p) w := by
    intro cs done hcs hdone v hd hv
    refine Leaves.foldlM_kept ⟨hd, hv⟩ fun c hc w hw => ?_
    rw [← funext (Check.apply_eq s m depth h p c w)]
    exact (hstep c (hcs hc) w hw.1).imp fun x hx => ⟨⟨hx.1, fun d hmem =>
      hx.2.2 d (hdone hmem) (hw.2 d hmem)⟩, hx.2.1, fun d hmem => hx.2.2 d (hcs hmem)⟩
  rw [funext (Node.apply_eq s m depth p (mk h head tail) v), changing]
  split
  · have hhead := hrun head [] (List.subset_append_left head tail) (List.nil_subset _) v hd
      (List.forall_mem_nil _)
    refine hhead.bind fun w hw => Leaves.after fun _ => ?_
    split
    · have htail := hrun tail head (List.subset_append_right head tail)
        (List.subset_append_left head tail) w hw.1.1 hw.2
      refine htail.imp fun x hx => hrests x hx.1.1 fun c hdue => ?_
      rcases (mem_due_iff.1 hdue).2 with hmem | ⟨hmem, -⟩
      · exact hx.1.2 c hmem
      · exact hx.2 c hmem
    · next hmissing =>
      refine Leaves.pure (hrests w hw.1.1 fun c hdue => ?_)
      rcases (mem_due_iff.1 hdue).2 with hmem | ⟨-, hdone⟩
      · exact hw.2 c hmem
      · exact absurd hdone hmissing
  · next htype =>
    refine Leaves.after fun _ => Leaves.pure (hrests v hd fun c hdue => ?_)
    exact absurd (mem_due_iff.1 hdue).1 htype

/-- **What a mutating run of a node that divides values leaves, a second run leaves alone.** -/
theorem Node.Divided.rests_after (h : n.Divided levels) {depth' : Nat} (hl : levels ≤ depth)
    (hl' : levels ≤ depth') (hd : v.distinct) :
    Leaves (n.apply s m depth v p) fun w =>
      w.distinct ∧ Rests (n.apply s m depth' w p) w (n.check s w p) := by
  induction h generalizing depth depth' v p with
  | @mk levels n hparting hone hnested hdefault ih =>
    refine rests_of_quiets (by omega) hparting (fun c hc v hd => ?_) hd
    refine Check.quiets_apply (hparting c hc) (hone c hc) (fun k seg x hk hx => ?_)
      (fun k seg hk level hlevel x hx t y t' ht => ⟨?_, fun level' hlevel' => ?_⟩) hd
    · exact hdefault c hc k seg x hk.sends (Heading.default_of_filling? hx)
    · have hle : levels ≤ level := by omega
      exact (ih c hc k seg hk hle hle hx t y t' ht).1
    · exact (ih c hc k seg hk (by omega) (by omega) hx t y t' ht).2

end

end JsonSchema
