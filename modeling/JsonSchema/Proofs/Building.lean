import Mathlib.Data.List.Forall2
import JsonSchema.Node.Compile

/-!
# What steps of a build return

A step of a build may fail, and it extends the table of targets. What it returns when it succeeds
is enough for the meaning of the nodes, so a step is described by a property of its results.

* `Build.Ensures`: every result of a step has a property;
* `Build.ensures_bind`, `Build.ensures_mapM`: steps one after the other.
-/

namespace JsonSchema

/-! ## Results of steps -/

namespace Build

/-- Whatever a step returns, if it succeeds, has the property. -/
def Ensures {α : Type} (m : Build α) (P : α → Prop) : Prop :=
  ∀ table a table', m table = .ok (a, table') → P a

variable {α β : Type} {P : α → Prop} {Q : β → Prop}

theorem pure_eq_ok {a b : α} {table table' : Subroutines} :
    (pure a : Build α) table = .ok (b, table') ↔ a = b ∧ table = table' := by
  show Except.ok (a, table) = .ok (b, table') ↔ _
  simp

theorem lift_eq_ok {r : Reads α} {a : α} {table table' : Subroutines} :
    (liftM r : Build α) table = .ok (a, table') ↔ r = .ok a ∧ table = table' := by
  cases r with
  | error e => exact iff_of_false nofun nofun
  | ok b =>
    show Except.ok (b, table) = .ok (a, table') ↔ _
    simp

theorem bind_eq_ok {m : Build α} {f : α → Build β} {b : β} {table table' : Subroutines} :
    (m >>= f) table = .ok (b, table') ↔
      ∃ a mid, m table = .ok (a, mid) ∧ f a mid = .ok (b, table') := by
  show (m table >>= fun r => f r.1 r.2) = _ ↔ _
  cases m table with
  | error e => exact iff_of_false nofun nofun
  | ok r =>
    obtain ⟨a, mid⟩ := r
    constructor
    · exact fun h => ⟨a, mid, rfl, h⟩
    · rintro ⟨_, _, ⟨⟩, h⟩
      exact h

/-- A step that looks at the table. -/
theorem get_bind (f : Subroutines → Build α) (table : Subroutines) :
    ((get : Build Subroutines) >>= f) table = f table table := rfl

theorem ensures_pure {a : α} (ha : P a) : Ensures (pure a) P := by
  intro table b table' h
  obtain ⟨rfl, rfl⟩ : a = b ∧ table = table' := by simpa using Except.ok.inj h
  exact ha

theorem ensures_throw (e : SchemaError) : Ensures (throw e) P := by
  intro table a table' h
  cases h

/-- A step that leaves the table alone. -/
theorem ensures_lift {r : Reads α} (hr : ∀ a, r = .ok a → P a) : Ensures (liftM r) P := by
  intro table a table' h
  cases r with
  | error e => cases h
  | ok b =>
    obtain ⟨rfl, rfl⟩ : b = a ∧ table = table' := by simpa using Except.ok.inj h
    exact hr b rfl

theorem ensures_bind {m : Build α} {f : α → Build β} (hm : Ensures m P)
    (hf : ∀ a, P a → Ensures (f a) Q) : Ensures (m >>= f) Q := by
  intro table b table' h
  cases hm' : m table with
  | error e =>
    have : (m >>= f) table = .error e := by
      show (m table >>= fun r => f r.1 r.2) = _
      rw [hm']
      rfl
    rw [this] at h
    cases h
  | ok r =>
    obtain ⟨a, mid⟩ := r
    have : (m >>= f) table = f a mid := by
      show (m table >>= fun r => f r.1 r.2) = _
      rw [hm']
      rfl
    rw [this] at h
    exact hf a (hm table a mid hm') mid b table' h

theorem Ensures.mono {m : Build α} {P' : α → Prop} (hm : Ensures m P) (h : ∀ a, P a → P' a) :
    Ensures m P' :=
  fun table a table' ha => h a (hm table a table' ha)

theorem ensures_mapM {R : α → β → Prop} {f : α → Build β} (xs : List α)
    (h : ∀ x ∈ xs, Ensures (f x) (R x)) : Ensures (xs.mapM f) (List.Forall₂ R xs) := by
  induction xs with
  | nil => exact ensures_pure .nil
  | cons x xs ih =>
    rw [List.mapM_cons]
    refine ensures_bind (h x List.mem_cons_self) fun b hb => ?_
    refine ensures_bind (ih fun y hy => h y (List.mem_cons_of_mem x hy)) fun bs hbs => ?_
    exact ensures_pure (.cons hb hbs)

end Build

end JsonSchema
