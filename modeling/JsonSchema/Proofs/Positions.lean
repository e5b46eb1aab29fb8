import JsonSchema.Proofs.Compiler
import JsonSchema.Proofs.Parts

/-!
# Positions of schemas

Where schemas stand in a schema object, which targets it names, and which schemas are reached from
a document in this way. Compiling comes to these positions and targets only.

* `Members.Position`, `Members.Names`: the schemas and the targets right below a schema object;
* `Target.schema?`: the schema that a target denotes;
* `Reachable`: the positions reached from the root of a document;
* `Alike.On.object`: compilers that are alike on the positions and targets of a schema object are
  alike on the object.
-/

namespace JsonSchema

/-! ## Positions -/

/-- The schemas in the value of a keyword. -/
def Keyword.schemas : Keyword → Json → List Json
  | .dependencies, .object entries => (entries.map Prod.snd).filter fun
    | .string _ | .array _ => false
    | _ => true
  | .additionalProperties, .object ps => [.object ps]
  | .not, v => [v]
  | .items, .array _ => []
  | .items, v => [v]
  | .patternProperties, .object entries => entries.map Prod.snd
  | .allOf, .array xs | .anyOf, .array xs | .oneOf, .array xs => xs
  | _, _ => []

theorem Keyword.mem_schemas {k : Keyword} {v x : Json} (h : x ∈ k.schemas v) :
    x = v ∨ x ∈ v.parts := by
  unfold schemas at h
  split at h
  · exact .inr (List.mem_filter.1 h).1
  · exact .inl (List.mem_singleton.1 h)
  · exact .inl (List.mem_singleton.1 h)
  · cases h
  · exact .inl (List.mem_singleton.1 h)
  · exact .inr h
  · exact .inr h
  · exact .inr h
  · exact .inr h
  · cases h

namespace Members

variable (o : Options) (ms : Members)

/-- The values right below a schema object that are schemas themselves. A registered keyword
replaces a keyword of its name. -/
inductive Position : Json → Prop
  | keyword {k : Keyword} {v x : Json} : o.keywords.lookup k.name = none →
      ms.lookup k.name = some v → x ∈ k.schemas v → Position x
  | tuple {xs : List Json} {x : Json} : tuple? ms = some xs → x ∈ xs → Position x
  | additionalItems {xs : List Json} {ps : Members} : tuple? ms = some xs →
      ms.lookup "additionalItems" = some (.object ps) → Position (.object ps)
  | property {ps : Members} {e : String × Json} : tuple? ms = none →
      ms.lookup "properties" = some (.object ps) → e ∈ ps → Position e.2

/-- The targets that a schema object names. -/
inductive Names : Target → Prop
  | format {name : String} {s : Json} : ms.lookup "format" = some (.string name) →
      o.formats.lookup name = some (.schema s) → Names (.format name)
  | reference {text : String} : o.keywords.lookup "$ref" = none →
      ms.lookup "$ref" = some (.string text) → Names (.reference text)

variable {o ms}

/-- A position is a part of the schema object, or a part of a part. -/
theorem Position.part {x : Json} (h : Position o ms x) :
    ∃ v ∈ (Json.object ms).parts, x = v ∨ x ∈ v.parts := by
  have hpart : ∀ {name : String} {v : Json}, ms.lookup name = some v →
      v ∈ (Json.object ms).parts := fun h => List.mem_map_of_mem (mem_of_lookup h)
  cases h with
  | keyword _ hv hx => exact ⟨_, hpart hv, Keyword.mem_schemas hx⟩
  | tuple ht hx => exact ⟨_, hpart (tuple?_eq_some.1 ht), .inr hx⟩
  | additionalItems _ hl => exact ⟨_, hpart hl, .inl rfl⟩
  | property _ hl he => exact ⟨_, hpart hl, .inr (List.mem_map_of_mem he)⟩

theorem Position.sizeOf_lt {x : Json} (h : Position o ms x) :
    sizeOf x < sizeOf (Json.object ms) := by
  obtain ⟨v, hv, rfl | hx⟩ := h.part
  · exact Json.sizeOf_lt_of_mem_parts hv
  · exact (Json.sizeOf_lt_of_mem_parts hx).trans (Json.sizeOf_lt_of_mem_parts hv)

end Members

/-- The schema that a target denotes in a document with options. -/
def Target.schema? (root : Json) (o : Options) : Target → Option Json
  | .reference text => (resolve? root o.documents text).filter Json.isSchema
  | .format name =>
    match o.formats.lookup name with
    | some (.schema s) => some s
    | _ => none

/-- The positions reached from the root of a document: the schemas right below schema objects, and
the schemas of the targets that they name. -/
inductive Reachable (root : Json) (o : Options) : Json → Prop
  | root : Reachable root o root
  | position {ms : Members} {x : Json} : Reachable root o (.object ms) → ms.Position o x →
      Reachable root o x
  | target {ms : Members} {k : Target} {x : Json} : Reachable root o (.object ms) →
      ms.Names o k → k.schema? root o = some x → Reachable root o x

/-- A target with a schema is reached if a schema object that is reached names it. -/
def Target.Reached (root : Json) (o : Options) (k : Target) : Prop :=
  ∃ ms : Members, Reachable root o (.object ms) ∧ ms.Names o k ∧ (k.schema? root o).isSome

/-! ## Compilers that are alike -/

/-- When steps are alike, in a sense that doing one step after the other keeps. Where `results`
holds, their results are the same. -/
structure Alike (m₁ m₂ : Type → Type) [Monad m₁] [Monad m₂] where
  results : Prop
  rel : {α : Type} → m₁ α → m₂ α → Prop
  pure : ∀ {α : Type} {a b : α}, (results → a = b) → rel (pure a) (pure b)
  bind : ∀ {α β : Type} {x : m₁ α} {y : m₂ α} {f : α → m₁ β} {g : α → m₂ β}, rel x y →
    (∀ a b, (results → a = b) → rel (f a) (g b)) → rel (x >>= f) (y >>= g)

namespace Alike

/-- Steps that are the same. -/
def identical (m : Type → Type) [Monad m] : Alike m m where
  results := True
  rel x y := x = y
  pure h := by rw [h trivial]
  bind := by
    rintro α β x _ f g rfl hfg
    exact congrArg (x >>= ·) (funext fun a => hfg a a fun _ => rfl)

variable {m₁ m₂ : Type → Type} [Monad m₁] [Monad m₂] (R : Alike m₁ m₂)

theorem map {α β : Type} {x : m₁ α} {y : m₂ α} (h : R.rel x y) (f : α → β) :
    R.rel (do return f (← x)) (do return f (← y)) :=
  R.bind h fun _ _ hab => R.pure fun hr => congrArg f (hab hr)

theorem same {α : Type} (a : α) : R.rel (Pure.pure a) (Pure.pure a) := R.pure fun _ => rfl

theorem mapM [LawfulMonad m₁] [LawfulMonad m₂] {α β : Type} {f : α → m₁ β} {g : α → m₂ β}
    (xs : List α) (h : ∀ x ∈ xs, R.rel (f x) (g x)) : R.rel (xs.mapM f) (xs.mapM g) := by
  induction xs with
  | nil => exact R.same []
  | cons x xs ih =>
    rw [List.mapM_cons, List.mapM_cons]
    refine R.bind (h x List.mem_cons_self) fun a b hab => ?_
    refine R.bind (ih fun y hy => h y (List.mem_cons_of_mem x hy)) fun as bs habs => ?_
    exact R.pure fun hr => by rw [hab hr, habs hr]

/-- Two compilers are alike on certain schemas and targets. -/
structure On (c₁ : Compiler m₁) (c₂ : Compiler m₂) (position : Json → Prop)
    (named : Target → Prop) : Prop where
  node : ∀ x, position x → ∀ place, R.rel (c₁.node place x) (c₂.node place x)
  target : ∀ k, named k → ∀ place, R.rel (c₁.target place k) (c₂.target place k)
  read : ∀ {α : Type} (r : Reads α), R.rel (c₁.read r) (c₂.read r)

namespace On

variable {R} {c₁ : Compiler m₁} {c₂ : Compiler m₂} {position : Json → Prop}
  {named : Target → Prop} (h : R.On c₁ c₂ position named) (location : Path)
include h

theorem items {xs : List Json} (hxs : ∀ x ∈ xs, position x) (i : Nat) :
    R.rel (c₁.items location i xs) (c₂.items location i xs) := by
  induction xs generalizing i with
  | nil => exact R.same []
  | cons x xs ih =>
    obtain ⟨hx, hxs⟩ := List.forall_mem_cons.1 hxs
    refine R.bind (h.node x hx _) fun a b hab => ?_
    refine R.bind (ih hxs (i + 1)) fun as bs habs => ?_
    exact R.pure fun hr => by rw [hab hr, habs hr]

theorem members {ms : Members} (hms : ∀ e ∈ ms, position e.2) :
    R.rel (c₁.members location ms) (c₂.members location ms) := by
  induction ms with
  | nil => exact R.same []
  | cons e ms ih =>
    obtain ⟨hx, hms⟩ := List.forall_mem_cons.1 hms
    refine R.bind (h.node _ hx _) fun a b hab => ?_
    refine R.bind (ih hms) fun as bs habs => ?_
    exact R.pure fun hr => by rw [hab hr, habs hr]

theorem patterns {ms : Members} (hms : ∀ e ∈ ms, position e.2) :
    R.rel (c₁.patterns location ms) (c₂.patterns location ms) := by
  induction ms with
  | nil => exact R.same []
  | cons e ms ih =>
    obtain ⟨hx, hms⟩ := List.forall_mem_cons.1 hms
    refine R.bind (h.read _) fun p q hpq => ?_
    refine R.bind (h.node _ hx _) fun a b hab => ?_
    refine R.bind (ih hms) fun as bs habs => ?_
    exact R.pure fun hr => by rw [hpq hr, hab hr, habs hr]

theorem dependencies {ms : Members}
    (hms : ∀ x ∈ Keyword.dependencies.schemas (.object ms), position x) :
    R.rel (c₁.dependencies location ms) (c₂.dependencies location ms) := by
  induction ms with
  | nil => exact R.same []
  | cons e ms ih =>
    obtain ⟨name, v⟩ := e
    have hrest : ∀ x ∈ Keyword.dependencies.schemas (.object ms), position x := by
      refine fun x hx => hms x ?_
      simp only [Keyword.schemas, List.map_cons, List.filter_cons] at hx ⊢
      split <;> simp [hx]
    have hv : R.rel (c₁.dependency (location ++ [.name name]) v)
        (c₂.dependency (location ++ [.name name]) v) := by
      cases v with
      | string other => exact R.same _
      | array names => exact R.map (h.read _) _
      | _ => exact R.map (h.node _ (hms _ (by simp [Keyword.schemas])) _) _
    refine R.bind hv fun a b hab => ?_
    refine R.bind (ih hrest) fun as bs habs => ?_
    exact R.pure fun hr => by rw [hab hr, habs hr]

theorem additionalItems {v : Json} (limit : Nat)
    (hv : ∀ ps, v = .object ps → position (.object ps)) :
    R.rel (c₁.additionalItems location limit v) (c₂.additionalItems location limit v) := by
  cases v with
  | bool b => cases b <;> exact R.same _
  | object ps => exact R.map (h.node _ (hv ps rfl) _) _
  | _ => exact h.read _

theorem format {o : Options} {v : Json} (hv : ∀ name s, v = .string name →
    o.formats.lookup name = some (.schema s) → named (.format name)) :
    R.rel (c₁.format location o v) (c₂.format location o v) := by
  cases v with
  | string name =>
    rw [Compiler.format, Compiler.format]
    split
    · next s hs => exact R.bind (h.target _ (hv name s rfl hs) _) fun _ _ _ => R.same _
    · exact R.map (h.read _) _
  | _ => exact h.read _

theorem keyword (ms : Members) {k : Keyword} {v : Json} (hv : ∀ x ∈ k.schemas v, position x)
    (href : ∀ text, k = .reference → v = .string text → named (.reference text)) :
    R.rel (c₁.keyword location ms k v) (c₂.keyword location ms k v) := by
  cases k with
  | dependencies =>
    cases v with
    | object entries => exact R.map (h.dependencies _ hv) _
    | _ => exact h.read _
  | additionalProperties =>
    cases v with
    | bool b =>
      cases b with
      | true => exact R.same _
      | false => exact R.map (h.read _) _
    | object ps =>
      refine R.bind (h.read _) fun d e hde => ?_
      refine R.bind (h.node _ (hv _ (by simp [Keyword.schemas])) _) fun a b hab => ?_
      exact R.pure fun hr => by rw [hde hr, hab hr]
    | _ => exact h.read _
  | reference =>
    cases v with
    | string text => exact R.map (h.target _ (href text rfl rfl) _) _
    | _ => exact h.read _
  | not => exact R.map (h.node _ (hv _ (by simp [Keyword.schemas])) _) _
  | items =>
    cases v with
    | array xs => exact R.same _
    | _ => exact R.map (h.node _ (hv _ (by simp [Keyword.schemas])) _) _
  | patternProperties =>
    cases v with
    | object entries =>
      have hentries : ∀ e ∈ entries, position e.2 := List.forall_mem_map.1 hv
      cases entries with
      | nil => exact R.same _
      | cons e entries => exact R.map (h.patterns _ hentries) _
    | _ => exact h.read _
  | allOf =>
    cases v with
    | array xs => exact R.map (h.items _ hv 0) _
    | _ => exact h.read _
  | anyOf | oneOf =>
    cases v with
    | array xs =>
      cases xs with
      | nil => exact R.same _
      | cons x xs => exact R.map (h.items _ hv 0) _
    | _ => exact h.read _
  | _ => exact R.map (h.read _) _

theorem parts (ms : Members) (hitems : ∀ xs, tuple? ms = some xs → ∀ x ∈ xs, position x)
    (hprops : tuple? ms = none → ∀ ps, ms.lookup "properties" = some (.object ps) →
      ∀ e ∈ ps, position e.2) :
    R.rel (c₁.parts location ms) (c₂.parts location ms) := by
  rw [Compiler.parts, Compiler.parts]
  cases ht : tuple? ms with
  | some xs => exact R.map (h.items _ (hitems xs ht) 0) _
  | none =>
    cases hl : ms.lookup "properties" with
    | none => exact R.same _
    | some x =>
      cases x with
      | object ps => exact R.map (h.members _ (hprops ht ps hl)) _
      | _ => exact h.read _

/-- **What is done with a schema object is alike** if it is for the schemas below it and for the
targets that it names. -/
theorem object [LawfulMonad m₁] [LawfulMonad m₂] {o : Options} {ms : Members}
    (hposition : ∀ x, ms.Position o x → position x) (hnamed : ∀ k, ms.Names o k → named k) :
    R.rel (c₁.object location o ms) (c₂.object location o ms) := by
  refine R.bind (h.read _) fun _ _ _ => ?_
  refine R.bind (h.read _) fun heading heading' hheading => ?_
  refine R.bind ?_ fun extra extra' hextra => ?_
  · cases ht : tuple? ms with
    | none => exact R.same _
    | some xs =>
      cases hl : ms.lookup "additionalItems" with
      | none => exact R.same _
      | some v =>
        exact h.additionalItems _ _ fun ps hps => hposition _ (.additionalItems ht (hps ▸ hl))
  refine R.bind ?_ fun format format' hformat => ?_
  · cases hl : ms.lookup "format" with
    | none => exact R.same _
    | some v => exact h.format _ fun name s hv hs => hnamed _ (.format (hv ▸ hl) hs)
  refine R.bind (R.mapM _ fun k _ => ?_) fun single single' hsingle => ?_
  · cases hk : o.keywords.lookup k.name with
    | some rule => exact R.same _
    | none =>
      cases hl : ms.lookup k.name with
      | none => exact R.same _
      | some v =>
        refine h.keyword _ ms (fun x hx => hposition _ (.keyword hk hl hx)) ?_
        rintro text rfl rfl
        exact hnamed _ (.reference hk hl)
  refine R.bind (h.parts location ms ?_ ?_) fun parts parts' hparts => ?_
  · exact fun xs ht x hx => hposition _ (.tuple ht hx)
  · exact fun ht ps hl e he => hposition _ (.property ht hl he)
  refine R.bind (h.read _) fun custom custom' hcustom => ?_
  exact R.pure fun hr => by
    rw [hheading hr, hextra hr, hformat hr, hsingle hr, hparts hr, hcustom hr]

theorem schema [LawfulMonad m₁] [LawfulMonad m₂] {o : Options} {x : Json}
    (hposition : ∀ ms : Members, x = .object ms → ∀ y, ms.Position o y → position y)
    (hnamed : ∀ ms : Members, x = .object ms → ∀ k, ms.Names o k → named k) :
    R.rel (c₁.schema location o x) (c₂.schema location o x) := by
  cases x with
  | object ms =>
    exact h.object location (hposition ms rfl) (hnamed ms rfl)
  | bool b => exact R.same _
  | _ => exact h.read _

end On

end Alike

end JsonSchema
