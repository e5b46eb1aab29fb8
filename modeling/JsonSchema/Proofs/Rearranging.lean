import JsonSchema.Proofs.SideBySide

/-!
# Compiling schema objects side by side

Two schema objects that differ in the order of members only compile alike, as far as what is below
them does: compiling succeeds for both or for neither, and the nodes look for the same things, in
one order or another.

* `Compiler.Agree`: compilers that agree on the schemas and targets that go together;
* `Node.Mirrors`: nodes that look for the same things;
* `Compiler.Agree.keyword`: what a keyword compiles to;
* `Compiler.Agree.object`, `Compiler.Agree.schema`: what a schema compiles to.
-/

namespace JsonSchema

open Reads (Succeeds)

/-! ## Compilers that agree -/

/-- Checks that look for the same things in every value, in one order or another. -/
abbrev Checks.Mirror (N : Node → Node → Prop) : List Check → List Check → Prop :=
  Paired (Check.Mirrors (· = ·) N)

/-- Nodes whose headings say the same and whose checks look for the same things in every value. -/
structure Node.Mirrors (N : Node → Node → Prop) (n n' : Node) : Prop where
  heading : n.heading.Agrees n'.heading
  checks : Checks.Mirror N n.checks n'.checks

/-- Two compilers agree on the schemas that go together, up to which nodes go together, and on all
targets. -/
structure Compiler.Agree (both : Prop) (c c' : Compiler Reads) (P : Json → Json → Prop)
    (N : Node → Node → Prop) : Prop where
  read : ∀ {α : Type} (r : Reads α), c.read r = r
  read' : ∀ {α : Type} (r : Reads α), c'.read r = r
  node : ∀ x y, P x y → ∀ place place', Reads.Agree both N (c.node place x) (c'.node place' y)
  target : ∀ k place place', Reads.Agree both (· = ·) (c.target place k) (c'.target place' k)

/-- A dependency on a schema, and not on names. -/
structure Json.IsDependencySchema (v : Json) : Prop where
  not_string : ∀ s, v ≠ .string s
  not_array : ∀ xs, v ≠ .array xs

theorem Json.IsDependencySchema.mem_schemas {ms : Members} {e : String × Json} (he : e ∈ ms)
    (h : e.2.IsDependencySchema) : e.2 ∈ Keyword.dependencies.schemas (.object ms) := by
  refine List.mem_filter.2 ⟨List.mem_map_of_mem he, ?_⟩
  split
  · next s hs => exact absurd hs (h.not_string s)
  · next xs hxs => exact absurd hxs (h.not_array xs)
  · rfl

namespace Compiler

section Entries

variable {m : Type → Type} [Monad m] [LawfulMonad m] (c : Compiler m) (location : Path)

theorem members_eq_mapM (ms : Members) :
    c.members location ms = ms.mapM fun e => do
      return (e.1, ← c.node (location ++ [.name e.1]) e.2) := by
  induction ms with
  | nil => rw [members, List.mapM_nil]
  | cons e ms ih => simp [members, List.mapM_cons, ih]

theorem patterns_eq_mapM (ms : Members) :
    c.patterns location ms = ms.mapM fun e => do
      let p ← c.read (readPattern (location ++ [.name e.1]) e.1)
      return (p, ← c.node (location ++ [.name e.1]) e.2) := by
  induction ms with
  | nil => rw [patterns, List.mapM_nil]
  | cons e ms ih => simp [patterns, List.mapM_cons, ih]

theorem dependencies_eq_mapM (ms : Members) :
    c.dependencies location ms = ms.mapM fun e => do
      return (e.1, ← c.dependency (location ++ [.name e.1]) e.2) := by
  induction ms with
  | nil => rw [dependencies, List.mapM_nil]
  | cons e ms ih => simp [dependencies, List.mapM_cons, ih]

end Entries

namespace Agree

variable {both : Prop} {c c' : Compiler Reads} {P : Json → Json → Prop}
  {N : Node → Node → Prop} (hc : Agree both c c' P N) (location location' : Path)
  {ms ns : Members} {v w : Json}
include hc

theorem reads {α β : Type} {R : α → β → Prop} {r : Reads α} {r' : Reads β}
    (h : Reads.Agree both R r r') : Reads.Agree both R (c.read r) (c'.read r') := by
  rwa [hc.read, hc.read']

theorem fails {α β : Type} {R : α → β → Prop} (e e' : SchemaError) :
    Reads.Agree both R (c.read (.error e)) (c'.read (.error e')) :=
  hc.reads (.error e e')

theorem items {xs ys : List Json} (h : List.Forall₂ Json.Reordered xs ys)
    (hP : ∀ x ∈ xs, ∀ y ∈ ys, x.Reordered y → P x y) (i : Nat) :
    Reads.Agree both (List.Forall₂ N) (c.items location i xs) (c'.items location' i ys) := by
  induction h generalizing i with
  | nil => exact .ok .nil
  | cons hxy _ ih =>
    refine (hc.node _ _ (hP _ List.mem_cons_self _ List.mem_cons_self hxy) _ _).bind ?_
    refine fun n n' hn => (ih (fun x hx y hy => ?_) (i + 1)).map fun rest rest' => .cons hn
    exact hP x (List.mem_cons_of_mem _ hx) y (List.mem_cons_of_mem _ hy)

section Entries

variable (h : Paired (SameKey Json.Reordered) ms ns)
  (hP : ∀ e ∈ ms, ∀ f ∈ ns, e.2.Reordered f.2 → P e.2 f.2)
include h hP

theorem members :
    Reads.Agree both (Paired (SameKey N)) (c.members location ms) (c'.members location' ns) := by
  rw [members_eq_mapM, members_eq_mapM]
  refine .mapM_paired h fun e he f hf hef => ?_
  exact (hc.node _ _ (hP e he f hf hef.2) _ _).map fun n n' hn => ⟨hef.1, hn⟩

theorem patterns :
    Reads.Agree both (Paired (SameKey N)) (c.patterns location ms) (c'.patterns location' ns) := by
  rw [patterns_eq_mapM, patterns_eq_mapM]
  refine .mapM_paired h fun e he f hf hef => ?_
  rw [hef.1]
  refine (hc.reads (readPattern_agrees f.1)).bind fun p q hpq => ?_
  exact (hc.node _ _ (hP e he f hf hef.2) _ _).map fun n n' hn => ⟨hpq, hn⟩

end Entries

theorem dependency (h : v.Reordered w) (place place' : Path)
    (hP : v.IsDependencySchema → w.IsDependencySchema → P v w) :
    Reads.Agree both (Dependency.Mirrors N) (c.dependency place v) (c'.dependency place' w) := by
  cases h.shape with
  | string s => exact .ok (.names [s])
  | array hitems =>
    refine (hc.reads (readNames_agrees _ _ hitems)).map fun names names' hnames => ?_
    rw [hnames]
    exact .names names'
  | _ => exact (hc.node _ _ (hP ⟨nofun, nofun⟩ ⟨nofun, nofun⟩) _ _).map fun n n' hn => .schema hn

theorem dependencies (h : Paired (SameKey Json.Reordered) ms ns)
    (hP : ∀ x ∈ Keyword.dependencies.schemas (.object ms),
      ∀ y ∈ Keyword.dependencies.schemas (.object ns), x.Reordered y → P x y) :
    Reads.Agree both (Paired (SameKey (Dependency.Mirrors N))) (c.dependencies location ms)
      (c'.dependencies location' ns) := by
  rw [dependencies_eq_mapM, dependencies_eq_mapM]
  refine .mapM_paired h fun e he f hf hef => ?_
  refine (hc.dependency hef.2 _ _ fun hv hw => ?_).map fun d d' hd => ⟨hef.1, hd⟩
  exact hP _ (hv.mem_schemas he) _ (hw.mem_schemas hf) hef.2

/-! ## Keywords -/

theorem additionalItems (h : v.Reordered w) (limit : Nat)
    (hP : ∀ ps qs, v = .object ps → w = .object qs → P v w) :
    Reads.Agree both (Checks.Mirror N) (c.additionalItems location limit v)
      (c'.additionalItems location' limit w) := by
  cases h.shape with
  | object =>
    refine (hc.node _ _ (hP _ _ rfl rfl) _ _).map fun n n' hn => ?_
    exact .singleton (.additionalItems limit hn)
  | bool b =>
    cases b with
    | true => exact .ok .nil
    | false => exact .ok (.singleton (.rule fun x y hxy => hxy ▸ Iff.rfl))
  | _ => exact hc.fails _ _

theorem format {o : Options} (h : v.Reordered w) :
    Reads.Agree both (Checks.Mirror N) (c.format location o v) (c'.format location' o w) := by
  cases h.shape with
  | string name =>
    rw [Compiler.format, Compiler.format]
    split
    · refine (hc.target _ _ _).bind fun _ _ _ => ?_
      exact .ok (.singleton (.schemaFormat name))
    · refine (hc.reads (readFormat_agrees o name)).map fun r r' hr => .singleton (.rule ?_)
      rintro x _ rfl
      rw [hr]
  | _ => exact hc.fails _ _

section Keywords

variable (h : (Json.object ms).Reordered (.object ns)) (hv : v.Reordered w)
include h hv

theorem additionalProperties (hP : ∀ x ∈ Keyword.additionalProperties.schemas v,
      ∀ y ∈ Keyword.additionalProperties.schemas w, x.Reordered y → P x y) :
    Reads.Agree both (Checks.Mirror N) (c.keyword location ms .additionalProperties v)
      (c'.keyword location' ns .additionalProperties w) := by
  have hread : Reads.Agree both _ (c.read (Declared.read location ms))
      (c'.read (Declared.read location' ns)) := hc.reads (Declared.read_agrees h)
  cases hv.shape with
  | bool b =>
    cases b with
    | true => exact .ok .nil
    | false => exact hread.map fun d d' hd => .singleton (.closed hd)
  | object =>
    have hxy := hP _ (List.mem_singleton_self _) _ (List.mem_singleton_self _) hv
    refine hread.bind fun d d' hd => ?_
    exact (hc.node _ _ hxy _ _).map fun n n' hn => .singleton (.additional hd hn)
  | _ => exact hc.fails _ _

/-- **What a keyword compiles to** looks for the same things, however the members of its value and
of the schema object are ordered. -/
theorem keyword (k : Keyword)
    (hP : ∀ x ∈ k.schemas v, ∀ y ∈ k.schemas w, x.Reordered y → P x y) :
    Reads.Agree both (Checks.Mirror N) (c.keyword location ms k v)
      (c'.keyword location' ns k w) := by
  have hsingle (hx : v ∈ k.schemas v) (hy : w ∈ k.schemas w) : P v w := hP v hx w hy hv
  cases k with
  | additionalProperties => exact hc.additionalProperties _ _ h hv hP
  | dependencies =>
    cases hv.shape with
    | object _ hmembers _ =>
      exact (hc.dependencies _ _ hmembers hP).map fun d d' hd => .singleton (.dependencies hd)
    | _ => exact hc.fails _ _
  | reference =>
    cases hv.shape with
    | string text =>
      refine (hc.target _ _ _).map fun b b' hb => ?_
      subst hb
      cases b with
      | true => exact .singleton (.reference text)
      | false => exact .nil
    | _ => exact hc.fails _ _
  | not =>
    have hxy := hsingle (List.mem_singleton_self _) (List.mem_singleton_self _)
    exact (hc.node _ _ hxy _ _).map fun n n' hn => .singleton (.negation hn)
  | items =>
    cases hv.shape with
    | array => exact .ok .nil
    | _ =>
      have hxy := hsingle (List.mem_singleton_self _) (List.mem_singleton_self _)
      exact (hc.node _ _ hxy _ _).map fun n n' hn => .singleton (.items hn)
  | patternProperties =>
    cases hv.shape with
    | @object es fs hlen hmembers _ =>
      cases es with
      | nil =>
        obtain rfl : fs = [] := List.length_eq_zero_iff.1 hlen.symm
        exact .ok .nil
      | cons e es =>
        cases fs with
        | nil => cases hlen
        | cons f fs =>
          refine (hc.patterns _ _ hmembers ?_).map fun ps qs hps =>
            .singleton (.patternProperties hps)
          exact fun e he f hf => hP _ (List.mem_map_of_mem he) _ (List.mem_map_of_mem hf)
    | _ => exact hc.fails _ _
  | allOf =>
    cases hv.shape with
    | array hitems => exact (hc.items _ _ hitems hP 0).map fun n n' hn => .singleton (.allOf hn)
    | _ => exact hc.fails _ _
  | anyOf =>
    cases hv.shape with
    | array hitems =>
      have hnodes := fun place place' => hc.items place place' hitems hP 0
      cases hitems with
      | nil => exact .ok .nil
      | cons => exact (hnodes _ _).map fun n n' hn => .singleton (.anyOf hn)
    | _ => exact hc.fails _ _
  | oneOf =>
    cases hv.shape with
    | array hitems =>
      have hnodes := fun place place' => hc.items place place' hitems hP 0
      cases hitems with
      | nil => exact .ok .nil
      | cons => exact (hnodes _ _).map fun n n' hn => .singleton (.oneOf hn)
    | _ => exact hc.fails _ _
  | _ =>
    refine (hc.reads (Keyword.rule?_agrees _ h hv)).map fun r r' hr => ?_
    cases hr with
    | none => exact .nil
    | some hr => exact .singleton (.rule fun x y hxy => hxy ▸ hr x)

end Keywords

/-! ## Schemas -/

section Objects

variable (h : (Json.object ms).Reordered (.object ns))
include h

theorem parts (hitems : ∀ xs ys, tuple? ms = some xs → tuple? ns = some ys →
      ∀ x ∈ xs, ∀ y ∈ ys, x.Reordered y → P x y)
    (hprops : tuple? ms = none → tuple? ns = none → ∀ ps qs,
      ms.lookup "properties" = some (.object ps) → ns.lookup "properties" = some (.object qs) →
      ∀ e ∈ ps, ∀ f ∈ qs, e.2.Reordered f.2 → P e.2 f.2) :
    Reads.Agree both (Checks.Mirror N) (c.parts location ms) (c'.parts location' ns) := by
  have htuple := tuple?_rel h
  have hproperties : OptionReordered _ _ := h.lookup "properties"
  rw [Compiler.parts, Compiler.parts, skipsNull_eq h]
  generalize tuple? ms = x, tuple? ns = x' at htuple hitems hprops
  generalize ms.lookup "properties" = y, ns.lookup "properties" = y' at hproperties hprops
  cases htuple with
  | some hxs =>
    exact (hc.items _ _ hxs (hitems _ _ rfl rfl) 0).map fun n n' hn => .singleton (.tuple hn)
  | none =>
    cases hproperties with
    | none => exact .ok .nil
    | some hvw =>
      cases hvw.shape with
      | object _ hmembers _ =>
        refine (hc.members _ _ hmembers (hprops rfl rfl _ _ rfl rfl)).map fun n n' hn => ?_
        exact .singleton (.properties _ hn)
      | _ => exact hc.fails _ _

/-- **What a schema object compiles to** looks for the same things, however its members are ordered,
if that holds of the schemas below it. -/
theorem object {o : Options} (ho : o.keywords = [])
    (hP : ∀ x y, ms.Position o x → ns.Position o y → x.Reordered y → P x y) :
    Reads.Agree both (Node.Mirrors N) (c.object location o ms) (c'.object location' o ns) := by
  have hreg (name : String) : o.keywords.lookup name = none := by rw [ho, List.lookup_nil]
  have hlookup (name : String) : OptionReordered (ms.lookup name) (ns.lookup name) := h.lookup name
  refine (hc.reads (checkKeywords_agrees ho h)).bind fun _ _ _ => ?_
  refine (hc.reads (readHeading_agrees h)).bind fun heading heading' hheading => ?_
  refine Reads.Agree.bind (R := Checks.Mirror N) ?_ fun extra extra' hextra => ?_
  · have htuple := tuple?_rel h
    have hl := hlookup "additionalItems"
    generalize ht : tuple? ms = xs, ht' : tuple? ns = ys at htuple
    generalize hx : ms.lookup "additionalItems" = x, hy : ns.lookup "additionalItems" = y at hl
    cases htuple with
    | none => exact .ok .nil
    | some hitems =>
      cases hl with
      | none => exact .ok .nil
      | some hvw =>
        dsimp only
        rw [hitems.length_eq]
        refine hc.additionalItems _ _ hvw _ fun ps qs hv hw => ?_
        subst hv hw
        exact hP _ _ (.additionalItems ht hx) (.additionalItems ht' hy) hvw
  refine Reads.Agree.bind (R := Checks.Mirror N) ?_ fun format format' hformat => ?_
  · have hl := hlookup "format"
    generalize ms.lookup "format" = x, ns.lookup "format" = y at hl
    cases hl with
    | none => exact .ok .nil
    | some hvw => exact hc.format _ _ hvw
  refine Reads.Agree.bind (R := List.Forall₂ (Checks.Mirror N)) ?_ fun single single' hsingle => ?_
  · refine .mapM (R := (· = ·)) (List.forall₂_same.2 fun _ _ => rfl) ?_
    rintro k - _ - rfl
    have hl := hlookup k.name
    rw [hreg]
    generalize hx : ms.lookup k.name = x, hy : ns.lookup k.name = y at hl
    cases hl with
    | none => exact .ok .nil
    | some hvw =>
      refine hc.keyword _ _ h hvw k fun x hmem y hmem' => ?_
      exact hP x y (.keyword (hreg _) hx hmem) (.keyword (hreg _) hy hmem')
  refine (hc.parts _ _ h ?_ ?_).bind fun parts parts' hparts => ?_
  · exact fun xs ys ht ht' x hx y hy => hP x y (.tuple ht hx) (.tuple ht' hy)
  · exact fun ht ht' ps qs hl hl' e he f hf => hP _ _ (.property ht hl he) (.property ht' hl' hf)
  rw [hc.read, hc.read', customChecks_eq_nil ho, customChecks_eq_nil ho]
  refine .ok ⟨hheading, (hextra.append hformat).append ((Paired.append ?_ hparts).append .nil)⟩
  exact (Paired.of_forall₂ hsingle).flatten

end Objects

/-- **What a schema compiles to** looks for the same things, however the members of schema objects
are ordered, if that holds of the schemas below it. -/
theorem schema {o : Options} (ho : o.keywords = []) {x y : Json} (h : x.Reordered y)
    (hP : ∀ ms ns : Members, x = .object ms → y = .object ns → ∀ v w, ms.Position o v →
      ns.Position o w → v.Reordered w → P v w) :
    Reads.Agree both (Node.Mirrors N) (c.schema location o x) (c'.schema location' o y) := by
  cases h.shape with
  | object => exact hc.object _ _ h ho (hP _ _ rfl rfl)
  | bool b => exact .ok ⟨⟨rfl, rfl, rfl, rfl⟩, .nil⟩
  | _ => exact hc.fails _ _

end Agree

end Compiler

end JsonSchema
