import Mathlib.Data.List.Forall2

/-!
# Lists with related entries

Two lists may have related entries in another order, and one of them may have an entry more often.
What is asked of all entries, or of some, is then answered alike.

* `Paired`: every entry of either list has a related one in the other;
* `Paired.map`, `Paired.filter`, `Paired.flatMap`: lists made of paired lists;
* `Paired.forall_iff`, `Paired.exists_iff`: what holds of all entries, or of some;
* `Paired.through`: lists that were made of paired lists entry by entry.
-/

namespace JsonSchema

/-- Every entry of either list is related to one of the other list. -/
structure Paired {α β : Type} (R : α → β → Prop) (xs : List α) (ys : List β) : Prop where
  left : ∀ x ∈ xs, ∃ y ∈ ys, R x y
  right : ∀ y ∈ ys, ∃ x ∈ xs, R x y

/-- Entries of one key with related values. -/
def SameKey {κ α β : Type} (R : α → β → Prop) (e : κ × α) (f : κ × β) : Prop :=
  e.1 = f.1 ∧ R e.2 f.2

variable {α β γ δ : Type} {R : α → β → Prop} {S : γ → δ → Prop} {xs xs' : List α} {ys ys' : List β}

namespace Paired

theorem nil : Paired R [] [] := ⟨nofun, nofun⟩

theorem singleton {x : α} {y : β} (h : R x y) : Paired R [x] [y] :=
  ⟨List.forall_mem_singleton.2 ⟨y, List.mem_singleton_self y, h⟩,
    List.forall_mem_singleton.2 ⟨x, List.mem_singleton_self x, h⟩⟩

theorem of_forall₂ (h : List.Forall₂ R xs ys) : Paired R xs ys := by
  induction h with
  | nil => exact nil
  | cons hxy _ ih =>
    constructor
    · refine List.forall_mem_cons.2 ⟨⟨_, List.mem_cons_self, hxy⟩, fun x hx => ?_⟩
      obtain ⟨y, hy, hxy⟩ := ih.left x hx
      exact ⟨y, List.mem_cons_of_mem _ hy, hxy⟩
    · refine List.forall_mem_cons.2 ⟨⟨_, List.mem_cons_self, hxy⟩, fun y hy => ?_⟩
      obtain ⟨x, hx, hxy⟩ := ih.right y hy
      exact ⟨x, List.mem_cons_of_mem _ hx, hxy⟩

theorem refl {R : α → α → Prop} {xs : List α} (h : ∀ x ∈ xs, R x x) :
    Paired R xs xs :=
  .of_forall₂ (List.forall₂_same.2 h)

theorem append (h : Paired R xs ys) (h' : Paired R xs' ys') :
    Paired R (xs ++ xs') (ys ++ ys') := by
  constructor
  · refine List.forall_mem_append.2 ⟨fun x hx => ?_, fun x hx => ?_⟩
    · obtain ⟨y, hy, hxy⟩ := h.left x hx
      exact ⟨y, List.mem_append_left _ hy, hxy⟩
    · obtain ⟨y, hy, hxy⟩ := h'.left x hx
      exact ⟨y, List.mem_append_right _ hy, hxy⟩
  · refine List.forall_mem_append.2 ⟨fun y hy => ?_, fun y hy => ?_⟩
    · obtain ⟨x, hx, hxy⟩ := h.right y hy
      exact ⟨x, List.mem_append_left _ hx, hxy⟩
    · obtain ⟨x, hx, hxy⟩ := h'.right y hy
      exact ⟨x, List.mem_append_right _ hx, hxy⟩

theorem map {f : α → γ} {g : β → δ} (h : Paired R xs ys) (hfg : ∀ x y, R x y → S (f x) (g y)) :
    Paired S (xs.map f) (ys.map g) := by
  constructor
  · refine List.forall_mem_map.2 fun x hx => ?_
    obtain ⟨y, hy, hxy⟩ := h.left x hx
    exact ⟨g y, List.mem_map_of_mem hy, hfg x y hxy⟩
  · refine List.forall_mem_map.2 fun y hy => ?_
    obtain ⟨x, hx, hxy⟩ := h.right y hy
    exact ⟨f x, List.mem_map_of_mem hx, hfg x y hxy⟩

theorem filter {p : α → Bool} {q : β → Bool} (h : Paired R xs ys)
    (hpq : ∀ x y, R x y → p x = q y) : Paired R (xs.filter p) (ys.filter q) := by
  constructor
  · intro x hx
    obtain ⟨hx, hp⟩ := List.mem_filter.1 hx
    obtain ⟨y, hy, hxy⟩ := h.left x hx
    exact ⟨y, List.mem_filter.2 ⟨hy, hpq x y hxy ▸ hp⟩, hxy⟩
  · intro y hy
    obtain ⟨hy, hq⟩ := List.mem_filter.1 hy
    obtain ⟨x, hx, hxy⟩ := h.right y hy
    exact ⟨x, List.mem_filter.2 ⟨hx, (hpq x y hxy).symm ▸ hq⟩, hxy⟩

theorem flatMap {f : α → List γ} {g : β → List δ} (h : Paired R xs ys)
    (hfg : ∀ x y, R x y → Paired S (f x) (g y)) : Paired S (xs.flatMap f) (ys.flatMap g) := by
  constructor
  · intro a ha
    obtain ⟨x, hx, ha⟩ := List.mem_flatMap.1 ha
    obtain ⟨y, hy, hxy⟩ := h.left x hx
    obtain ⟨b, hb, hab⟩ := (hfg x y hxy).left a ha
    exact ⟨b, List.mem_flatMap.2 ⟨y, hy, hb⟩, hab⟩
  · intro b hb
    obtain ⟨y, hy, hb⟩ := List.mem_flatMap.1 hb
    obtain ⟨x, hx, hxy⟩ := h.right y hy
    obtain ⟨a, ha, hab⟩ := (hfg x y hxy).right b hb
    exact ⟨a, List.mem_flatMap.2 ⟨x, hx, ha⟩, hab⟩

theorem flatten {xss : List (List α)} {yss : List (List β)} (h : Paired (Paired R) xss yss) :
    Paired R xss.flatten yss.flatten := by
  rw [← List.flatMap_id, ← List.flatMap_id]
  exact h.flatMap fun _ _ => id

theorem forall_iff {P : α → Prop} {Q : β → Prop} (h : Paired R xs ys)
    (hpq : ∀ x ∈ xs, ∀ y ∈ ys, R x y → (P x ↔ Q y)) : (∀ x ∈ xs, P x) ↔ ∀ y ∈ ys, Q y := by
  constructor
  · intro hp y hy
    obtain ⟨x, hx, hxy⟩ := h.right y hy
    exact (hpq x hx y hy hxy).1 (hp x hx)
  · intro hq x hx
    obtain ⟨y, hy, hxy⟩ := h.left x hx
    exact (hpq x hx y hy hxy).2 (hq y hy)

theorem exists_iff {P : α → Prop} {Q : β → Prop} (h : Paired R xs ys)
    (hpq : ∀ x ∈ xs, ∀ y ∈ ys, R x y → (P x ↔ Q y)) : (∃ x ∈ xs, P x) ↔ ∃ y ∈ ys, Q y := by
  constructor
  · rintro ⟨x, hx, hp⟩
    obtain ⟨y, hy, hxy⟩ := h.left x hx
    exact ⟨y, hy, (hpq x hx y hy hxy).1 hp⟩
  · rintro ⟨y, hy, hq⟩
    obtain ⟨x, hx, hxy⟩ := h.right y hy
    exact ⟨x, hx, (hpq x hx y hy hxy).2 hq⟩

/-- Lists that were made of paired lists entry by entry. -/
theorem through {zs : List γ} {ws : List δ} {A : α → γ → Prop} {B : β → δ → Prop}
    (h : Paired R xs ys) (hzs : List.Forall₂ A xs zs) (hws : List.Forall₂ B ys ws)
    (hS : ∀ x ∈ xs, ∀ y ∈ ys, ∀ z w, R x y → A x z → B y w → S z w) : Paired S zs ws := by
  have hz := of_forall₂ hzs
  have hw := of_forall₂ hws
  constructor
  · intro z hz'
    obtain ⟨x, hx, hxz⟩ := hz.right z hz'
    obtain ⟨y, hy, hxy⟩ := h.left x hx
    obtain ⟨w, hw', hyw⟩ := hw.left y hy
    exact ⟨w, hw', hS x hx y hy z w hxy hxz hyw⟩
  · intro w hw'
    obtain ⟨y, hy, hyw⟩ := hw.right w hw'
    obtain ⟨x, hx, hxy⟩ := h.right y hy
    obtain ⟨z, hz', hxz⟩ := hz.left x hx
    exact ⟨z, hz', hS x hx y hy z w hxy hxz hyw⟩

end Paired

/-! ## Entries one by one -/

theorem forall₂_zipIdx (h : List.Forall₂ R xs ys) (i : Nat) :
    List.Forall₂ (fun a b => R a.1 b.1 ∧ a.2 = b.2) (xs.zipIdx i) (ys.zipIdx i) := by
  induction h generalizing i with
  | nil => exact .nil
  | cons hxy _ ih => exact .cons ⟨hxy, rfl⟩ (ih (i + 1))

theorem rel_getElem?_of_forall₂ (h : List.Forall₂ R xs ys) (i : Nat) :
    Option.Rel R xs[i]? ys[i]? := by
  induction h generalizing i with
  | nil => exact .none
  | cons hxy _ ih =>
    cases i with
    | zero => exact .some hxy
    | succ i => simpa using ih i

theorem exists_right_of_rel {x : Option α} {y : Option β} {a : α} (h : Option.Rel R x y)
    (hx : x = some a) : ∃ b, y = some b ∧ R a b := by
  subst hx
  cases h with
  | some h => exact ⟨_, rfl, h⟩

theorem exists_left_of_rel {x : Option α} {y : Option β} {b : β} (h : Option.Rel R x y)
    (hy : y = some b) : ∃ a, x = some a ∧ R a b := by
  subst hy
  cases h with
  | some h => exact ⟨_, rfl, h⟩

theorem countP_eq_of_forall₂ {p : α → Bool} {q : β → Bool} (h : List.Forall₂ R xs ys)
    (hpq : ∀ x ∈ xs, ∀ y, R x y → p x = q y) : xs.countP p = ys.countP q := by
  induction h with
  | nil => rfl
  | cons hxy _ ih =>
    obtain ⟨hx, hxs⟩ := List.forall_mem_cons.1 hpq
    rw [List.countP_cons, List.countP_cons, hx _ hxy, ih hxs]

theorem pairwise_iff_of_forall₂ {P : α → α → Prop} {Q : β → β → Prop} (h : List.Forall₂ R xs ys)
    (hPQ : ∀ x y x' y', R x y → R x' y' → (P x x' ↔ Q y y')) : xs.Pairwise P ↔ ys.Pairwise Q := by
  induction h with
  | nil => exact iff_of_true .nil .nil
  | cons hxy hxys ih =>
    rw [List.pairwise_cons, List.pairwise_cons, ih]
    refine and_congr_left fun _ => (Paired.of_forall₂ hxys).forall_iff fun x _ y _ hxy' => ?_
    exact hPQ _ _ _ _ hxy hxy'

end JsonSchema
