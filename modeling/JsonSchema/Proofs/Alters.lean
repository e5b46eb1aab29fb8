import JsonSchema.Proofs.GuardedChange
import JsonSchema.Proofs.Parts
import JsonSchema.Proofs.Performs

/-!
# Steps of a mutating run

A step of a mutating run and the same step of a guarded one change a value alike, make the same
reports, and leave a value that reaches down no further than before.

* `Alters`: two steps that change a value alike;
* `Alters.comp`, `Alters.foldlM`, `Alters.changeMembers`, `Alters.changeItems`: how they combine.
-/

namespace JsonSchema

/-- Two steps that change a value alike, one of them on a guarded run, with the same reports
whatever has been reported before. The value left is no higher than the one given. -/
def Alters {σ : Type} (height : σ → Nat) (A : List (Target × Path)) (d : Option Json)
    (P : Event → Prop) (f : σ → GuardedRun → Option (σ × GuardedRun))
    (g : σ → Tally → Option (σ × Tally)) (x : σ) : Prop :=
  ∃ y vs, height y ≤ height x ∧ (∀ t, g x t = some (y, t.reportAll vs)) ∧
    ∀ r : GuardedRun, r.active = A → r.declaredType = d →
      ∃ es, f x r = some (y, r.after vs es) ∧ ∀ e ∈ es, P e

namespace Alters

variable {σ : Type} {μ : σ → Nat} {A : List (Target × Path)} {d : Option Json}
  {P : Event → Prop} {f f' : σ → GuardedRun → Option (σ × GuardedRun)}
  {g g' : σ → Tally → Option (σ × Tally)} {x : σ}

/-- A step that only looks at the value. -/
theorem look {look : GuardedRun → Option GuardedRun} {vs : List Violation}
    (h : Performs A d P look vs) (hf : ∀ r, f x r = look r >>= fun r => some (x, r))
    (hg : ∀ t, g x t = some (x, t.reportAll vs)) : Alters μ A d P f g x := by
  refine ⟨x, vs, Nat.le_refl _, hg, fun r hr hd => ?_⟩
  obtain ⟨es, hl, hes⟩ := h r hr hd
  exact ⟨es, by rw [hf, hl]; rfl, hes⟩

theorem nothing : Alters μ A d P (fun x r => some (x, r)) (fun x t => some (x, t)) x :=
  look Performs.nothing (fun _ => rfl) fun _ => rfl

theorem congr (h : Alters μ A d P f g x) (hf : ∀ r, f' x r = f x r)
    (hg : ∀ t, g' x t = g x t) : Alters μ A d P f' g' x := by
  obtain ⟨y, vs, hy, hg', hf'⟩ := h
  refine ⟨y, vs, hy, fun t => (hg t).trans (hg' t), fun r hr hd => ?_⟩
  rw [hf]
  exact hf' r hr hd

theorem note {e : Event} (he : P e) (h : Alters μ A d P f g x) :
    Alters μ A d P (fun x r => f x (r.note e)) g x := by
  obtain ⟨y, vs, hy, hg, hf⟩ := h
  refine ⟨y, vs, hy, hg, fun r hr hd => ?_⟩
  obtain ⟨es, hf, hes⟩ := hf (r.note e) hr hd
  refine ⟨e :: es, ?_, List.forall_mem_cons.mpr ⟨he, hes⟩⟩
  show f x (r.note e) = _
  rw [hf, r.note_eq, r.after_after]
  rfl

/-- A step under another declared type, which is taken back at its end. -/
theorem under {d' : Option Json} (h : Alters μ A d' P f g x) :
    Alters μ A d P (fun x r => f x { r with declaredType := d' } >>= fun y =>
      some (y.1, { y.2 with declaredType := r.declaredType })) g x := by
  obtain ⟨y, vs, hy, hg, hf⟩ := h
  refine ⟨y, vs, hy, hg, fun r hr hd => ?_⟩
  obtain ⟨es, hf, hes⟩ := hf { r with declaredType := d' } hr rfl
  refine ⟨es, ?_, hes⟩
  show f x { r with declaredType := d' } >>= _ = _
  rw [hf]
  rfl

theorem comp (h : Alters μ A d P f g x)
    (h' : ∀ y, μ y ≤ μ x → Alters μ A d P f' g' y) :
    Alters μ A d P (fun x r => f x r >>= fun y => f' y.1 y.2)
      (fun x t => g x t >>= fun y => g' y.1 y.2) x := by
  obtain ⟨y, vs, hy, hg, hf⟩ := h
  obtain ⟨z, ws, hz, hg', hf'⟩ := h' y hy
  refine ⟨z, vs ++ ws, Nat.le_trans hz hy, fun t => ?_, fun r hr hd => ?_⟩
  · show g x t >>= _ = _
    rw [hg, Tally.reportAll_append]
    exact hg' _
  · obtain ⟨es, hf, hes⟩ := hf r hr hd
    obtain ⟨fs, hf', hfs⟩ := hf' (r.after vs es) hr hd
    refine ⟨es ++ fs, ?_, fun e h => (List.mem_append.mp h).elim (hes e) (hfs e)⟩
    show f x r >>= _ = _
    rw [hf, ← r.after_after]
    exact hf'

theorem foldlM {α : Type} (l : List α) {f : σ × GuardedRun → α → Option (σ × GuardedRun)}
    {g : σ × Tally → α → Option (σ × Tally)}
    (h : ∀ a ∈ l, ∀ y, μ y ≤ μ x →
      Alters μ A d P (fun y r => f (y, r) a) (fun y t => g (y, t) a) y) :
    Alters μ A d P (fun x r => l.foldlM f (x, r)) (fun x t => l.foldlM g (x, t)) x := by
  induction l generalizing x with
  | nil => exact nothing
  | cons a l ih =>
    have ha := h a List.mem_cons_self x (Nat.le_refl _)
    have hl : ∀ y, μ y ≤ μ x → Alters μ A d P (fun x r => l.foldlM f (x, r))
        (fun x t => l.foldlM g (x, t)) y :=
      fun y hy => ih fun b hb z hz => h b (List.mem_cons_of_mem a hb) z (Nat.le_trans hz hy)
    exact ha.comp hl

/-- A step on a whole, from a step on a part of it. -/
theorem image {τ : Type} {μ' : τ → Nat} (c : σ → τ) {z : τ}
    {F : τ → GuardedRun → Option (τ × GuardedRun)} {G : τ → Tally → Option (τ × Tally)}
    (hc : ∀ y, μ y ≤ μ x → μ' (c y) ≤ μ' z)
    (hF : ∀ r, F z r = f x r >>= fun y => some (c y.1, y.2))
    (hG : ∀ t, G z t = g x t >>= fun y => some (c y.1, y.2))
    (h : Alters μ A d P f g x) : Alters μ' A d P F G z := by
  obtain ⟨y, vs, hy, hg, hf⟩ := h
  refine ⟨c y, vs, hc y hy, fun t => ?_, fun r hr hd => ?_⟩
  · rw [hG, hg]
    rfl
  · obtain ⟨es, hf, hes⟩ := hf r hr hd
    exact ⟨es, by rw [hF, hf]; rfl, hes⟩

end Alters

/-! ## Members and items -/

section Parts

open Json (heightMembers heightItems heightMembers_le_iff heightItems_le_iff)

variable {A : List (Target × Path)} {d : Option Json} {P : Event → Prop}

theorem Alters.changeMembers {f : String → Json → GuardedRun → Option (Json × GuardedRun)}
    {g : String → Json → Tally → Option (Json × Tally)} (ms : Members)
    (h : ∀ e ∈ ms, Alters Json.height A d P (f e.1) (g e.1) e.2) :
    Alters heightMembers A d P (JsonSchema.changeMembers f) (JsonSchema.changeMembers g) ms := by
  induction ms with
  | nil => exact Alters.look Performs.nothing (fun _ => rfl) fun _ => rfl
  | cons e ms ih =>
    obtain ⟨name, v⟩ := e
    obtain ⟨w, vs, hw, hg, hf⟩ := h (name, v) List.mem_cons_self
    obtain ⟨ns, ws, hns, hgs, hfs⟩ := ih fun e he => h e (List.mem_cons_of_mem _ he)
    refine ⟨(name, w) :: ns, vs ++ ws, ?_, fun t => ?_, fun r hr hd => ?_⟩
    · rw [heightMembers, heightMembers]
      have : w.height ≤ v.height := hw
      omega
    · rw [JsonSchema.changeMembers, hg]
      simp only [Option.pure_def, Option.bind_eq_bind, Option.bind_some, hgs,
        Tally.reportAll_append]
    · obtain ⟨es, hf, hes⟩ := hf r hr hd
      obtain ⟨fs, hfs, hfs'⟩ := hfs (r.after vs es) hr hd
      refine ⟨es ++ fs, ?_, fun e h => (List.mem_append.mp h).elim (hes e) (hfs' e)⟩
      rw [JsonSchema.changeMembers, hf]
      simp only [Option.pure_def, Option.bind_eq_bind, Option.bind_some, hfs, r.after_after]

theorem Alters.changeItems {f : Nat → Json → GuardedRun → Option (Json × GuardedRun)}
    {g : Nat → Json → Tally → Option (Json × Tally)} (xs : List Json)
    (h : ∀ i, ∀ x ∈ xs, Alters Json.height A d P (f i) (g i) x) (i : Nat) :
    Alters heightItems A d P (JsonSchema.changeItems f i) (JsonSchema.changeItems g i) xs := by
  induction xs generalizing i with
  | nil => exact Alters.look Performs.nothing (fun _ => rfl) fun _ => rfl
  | cons x xs ih =>
    obtain ⟨y, vs, hy, hg, hf⟩ := h i x List.mem_cons_self
    obtain ⟨ys, ws, hys, hgs, hfs⟩ := ih (fun i x hx => h i x (List.mem_cons_of_mem _ hx)) (i + 1)
    refine ⟨y :: ys, vs ++ ws, ?_, fun t => ?_, fun r hr hd => ?_⟩
    · rw [heightItems, heightItems]
      omega
    · rw [JsonSchema.changeItems, hg]
      simp only [Option.pure_def, Option.bind_eq_bind, Option.bind_some, hgs,
        Tally.reportAll_append]
    · obtain ⟨es, hf, hes⟩ := hf r hr hd
      obtain ⟨fs, hfs, hfs'⟩ := hfs (r.after vs es) hr hd
      refine ⟨es ++ fs, ?_, fun e h => (List.mem_append.mp h).elim (hes e) (hfs' e)⟩
      rw [JsonSchema.changeItems, hf]
      simp only [Option.pure_def, Option.bind_eq_bind, Option.bind_some, hfs, r.after_after]

/-- A step on the members of an object. -/
theorem Alters.object {f : Members → GuardedRun → Option (Members × GuardedRun)}
    {g : Members → Tally → Option (Members × Tally)} {ms : Members}
    {F : Json → GuardedRun → Option (Json × GuardedRun)} {G : Json → Tally → Option (Json × Tally)}
    (h : Alters heightMembers A d P f g ms)
    (hF : ∀ r, F (.object ms) r = f ms r >>= fun y => some (.object y.1, y.2))
    (hG : ∀ t, G (.object ms) t = g ms t >>= fun y => some (.object y.1, y.2)) :
    Alters Json.height A d P F G (.object ms) :=
  h.image Json.object
    (fun ns hns => by rw [Json.height, Json.height]; exact Nat.succ_le_succ hns) hF hG

/-- A step on the items of an array. -/
theorem Alters.array {f : List Json → GuardedRun → Option (List Json × GuardedRun)}
    {g : List Json → Tally → Option (List Json × Tally)} {xs : List Json}
    {F : Json → GuardedRun → Option (Json × GuardedRun)} {G : Json → Tally → Option (Json × Tally)}
    (h : Alters heightItems A d P f g xs)
    (hF : ∀ r, F (.array xs) r = f xs r >>= fun y => some (.array y.1, y.2))
    (hG : ∀ t, G (.array xs) t = g xs t >>= fun y => some (.array y.1, y.2)) :
    Alters Json.height A d P F G (.array xs) :=
  h.image Json.array
    (fun ys hys => by rw [Json.height, Json.height]; exact Nat.succ_le_succ hys) hF hG

/-- An item that gets no higher leaves the array no higher. -/
theorem heightItems_set_le {xs : List Json} {i : Nat} {x y : Json} (hx : xs[i]? = some x)
    (hy : y.height ≤ x.height) : heightItems (xs.set i y) ≤ heightItems xs := by
  have hxs := heightItems_le_iff.mp (Nat.le_refl (heightItems xs))
  apply heightItems_le_iff.mpr
  intro z hz
  rcases List.mem_or_eq_of_mem_set hz with hz | rfl
  · exact hxs z hz
  · exact Nat.le_trans hy (hxs x (List.mem_of_getElem? hx))

theorem heightMembers_replace_le {ms : Members} {name : String} {v w : Json}
    (hv : ms.lookup name = some v) (hw : w.height ≤ v.height) :
    heightMembers (ms.replace name w) ≤ heightMembers ms := by
  have hms := heightMembers_le_iff.mp (Nat.le_refl (heightMembers ms))
  apply heightMembers_le_iff.mpr
  intro e he
  obtain ⟨m, hm, rfl⟩ := List.mem_map.mp he
  split
  · exact Nat.le_trans hw (hms _ (mem_of_lookup hv))
  · exact hms m hm

theorem heightMembers_filter_le (q : String × Json → Bool) (ms : Members) :
    heightMembers (ms.filter q) ≤ heightMembers ms := by
  have hms := heightMembers_le_iff.mp (Nat.le_refl (heightMembers ms))
  exact heightMembers_le_iff.mpr fun m hm => hms m (List.mem_filter.mp hm).1

end Parts

end JsonSchema
