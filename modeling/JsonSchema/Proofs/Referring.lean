import JsonSchema.Proofs.Buildable
import JsonSchema.Proofs.Pairing

/-!
# The targets of compiled nodes

Every target that a node of a build refers to, anywhere in it, is in the table. Looking it up
during a run never fails.

* `Compiler.forall_of_object`: the checks of a schema object by its keywords;
* `Node.Refers`: a check anywhere in a node asks for a target;
* `Compiler.Yields.object`: what a compiled object holds and asks for;
* `Plan.Settled.lookup_of_refers`: the table of a build has all targets that its nodes refer to.
-/

namespace JsonSchema

/-! ## What compiled nodes hold -/

/-- A check anywhere in a node asks for a target. -/
def Node.Refers (n : Node) (k : Target) : Prop :=
  ∃ m : Node, m.Within n ∧ ∃ c ∈ m.checks, c.target? = some k

/-- The nodes of a check have one property, and the target that it asks for has another one. -/
def Check.Within (N : Node → Prop) (K : Target → Prop) (c : Check) : Prop :=
  (∀ n ∈ c.nodes, N n) ∧ ∀ k, c.target? = some k → K k

namespace Check.Within

variable {N : Node → Prop} {K : Target → Prop} {c : Check}

theorem of_here (hn : ∀ n ∈ c.nodesHere, N n) (hb : c.nodesBelow = []) (ht : c.target? = none) :
    c.Within N K := by
  constructor
  · rwa [nodes, hb, List.append_nil]
  · intro k hk
    rw [ht] at hk
    cases hk

theorem of_below (hh : c.nodesHere = []) (hn : ∀ n ∈ c.nodesBelow, N n) (ht : c.target? = none) :
    c.Within N K := by
  constructor
  · rwa [nodes, hh, List.nil_append]
  · intro k hk
    rw [ht] at hk
    cases hk

/-- A check without nodes that asks for nothing. -/
theorem leaf (hh : c.nodesHere = []) (hb : c.nodesBelow = []) (ht : c.target? = none) :
    c.Within N K :=
  of_below hh (by rw [hb]; exact List.forall_mem_nil _) ht

theorem of_target {k : Target} (hn : c.nodes = []) (ht : c.target? = some k) (hk : K k) :
    c.Within N K := by
  constructor
  · rw [hn]
    exact List.forall_mem_nil _
  · intro k' hk'
    rw [ht] at hk'
    cases hk'
    exact hk

end Check.Within

theorem customChecks_rules {P : Check → Prop} (hrule : ∀ r place, P (.rule r place)) {o : Options}
    {location : Path} {ms rest : Members} {cs : List Check}
    (h : customChecks o location ms rest = .ok cs) : ∀ d ∈ cs, P d := by
  induction rest generalizing cs with
  | nil =>
    cases h
    exact List.forall_mem_nil _
  | cons e rest ih =>
    rw [customChecks] at h
    split at h
    · exact ih h
    · obtain ⟨test, -, h⟩ := Reads.bind_eq_ok h
      obtain ⟨ds, hds, h⟩ := Reads.bind_eq_ok h
      cases h
      exact List.forall_mem_cons.2 ⟨hrule _ _, ih hds⟩

theorem Reads.forall_of_mapM {α β : Type} {P : β → Prop} {f : α → Reads β} {xs : List α}
    {ys : List β} (h : xs.mapM f = .ok ys) (hf : ∀ x y, f x = .ok y → P y) : ∀ y ∈ ys, P y := by
  intro y hy
  obtain ⟨x, -, hxy⟩ := (Paired.of_forall₂ (mapM_eq_ok h)).right y hy
  exact hf x y hxy

namespace Compiler

variable {c : Compiler Reads} {o : Options} {N : Node → Prop} {K : Target → Prop}

section Reads

variable {location : Path} {ms : Members} {n : Node}

theorem items_eq_ok {i : Nat} {xs : List Json} {ns : List Node}
    (h : c.items location i xs = .ok ns) :
    List.Forall₂ (fun x n => ∃ place, c.node place x = .ok n) xs ns := by
  induction xs generalizing i ns with
  | nil =>
    cases h
    exact .nil
  | cons x xs ih =>
    obtain ⟨n, hn, h⟩ := Reads.bind_eq_ok h
    obtain ⟨rest, hrest, h⟩ := Reads.bind_eq_ok h
    cases h
    exact .cons ⟨_, hn⟩ (ih hrest)

theorem members_eq_ok {ns : List (String × Node)} (h : c.members location ms = .ok ns) :
    List.Forall₂ (fun e f => f.1 = e.1 ∧ ∃ place, c.node place e.2 = .ok f.2) ms ns := by
  induction ms generalizing ns with
  | nil =>
    cases h
    exact .nil
  | cons e ms ih =>
    obtain ⟨n, hn, h⟩ := Reads.bind_eq_ok h
    obtain ⟨rest, hrest, h⟩ := Reads.bind_eq_ok h
    cases h
    exact .cons ⟨rfl, _, hn⟩ (ih hrest)

theorem map_fst_of_members {ns : List (String × Node)} (h : c.members location ms = .ok ns) :
    ns.map Prod.fst = ms.map Prod.fst := by
  have hall := members_eq_ok h
  clear h
  induction hall with
  | nil => rfl
  | cons he _ ih => rw [List.map_cons, List.map_cons, he.1, ih]

variable (hread : ∀ {α : Type} (r : Reads α), c.read r = r)
include hread

theorem heading_of_object (h : c.object location o ms = .ok n) :
    readHeading location ms = .ok n.heading := by
  obtain ⟨_, -, h⟩ := Reads.bind_eq_ok h
  obtain ⟨heading, hheading, h⟩ := Reads.bind_eq_ok h
  obtain ⟨_, -, h⟩ := Reads.bind_eq_ok h
  obtain ⟨_, -, h⟩ := Reads.bind_eq_ok h
  obtain ⟨_, -, h⟩ := Reads.bind_eq_ok h
  obtain ⟨_, -, h⟩ := Reads.bind_eq_ok h
  obtain ⟨_, -, h⟩ := Reads.bind_eq_ok h
  cases h
  exact (hread _).symm.trans hheading

/-- What holds of all checks that the keywords of a schema object compile to holds of all checks of
its node. -/
theorem forall_of_object {P : Check → Prop}
    (custom : ∀ cs, customChecks o location ms ms = .ok cs → ∀ d ∈ cs, P d)
    (additionalItems : ∀ xs v cs, tuple? ms = some xs → ms.lookup "additionalItems" = some v →
      c.additionalItems location xs.length v = .ok cs → ∀ d ∈ cs, P d)
    (format : ∀ v cs, ms.lookup "format" = some v → c.format location o v = .ok cs →
      ∀ d ∈ cs, P d)
    (keyword : ∀ (k : Keyword) v cs, o.keywords.lookup k.name = none →
      ms.lookup k.name = some v → c.keyword location ms k v = .ok cs → ∀ d ∈ cs, P d)
    (parts : ∀ cs, c.parts location ms = .ok cs → ∀ d ∈ cs, P d)
    (h : c.object location o ms = .ok n) : ∀ d ∈ n.checks, P d := by
  obtain ⟨_, -, h⟩ := Reads.bind_eq_ok h
  obtain ⟨heading, -, h⟩ := Reads.bind_eq_ok h
  obtain ⟨extra, hextra, h⟩ := Reads.bind_eq_ok h
  obtain ⟨schemas, hformat, h⟩ := Reads.bind_eq_ok h
  obtain ⟨single, hsingle, h⟩ := Reads.bind_eq_ok h
  obtain ⟨divided, hparts, h⟩ := Reads.bind_eq_ok h
  obtain ⟨last, hlast, h⟩ := Reads.bind_eq_ok h
  cases h
  have hextra : ∀ d ∈ extra, P d := by
    split at hextra
    · next xs v ht hv => exact additionalItems xs v extra ht hv hextra
    · cases hextra
      exact List.forall_mem_nil _
  have hformat : ∀ d ∈ schemas, P d := by
    split at hformat
    · next v hv => exact format v schemas hv hformat
    · cases hformat
      exact List.forall_mem_nil _
  have hsingle : ∀ cs ∈ single, ∀ d ∈ cs, P d := by
    refine Reads.forall_of_mapM hsingle fun k cs hk => ?_
    split at hk
    · next v ho hv => exact keyword k v cs ho hv hk
    · cases hk
      exact List.forall_mem_nil _
  rw [hread] at hlast
  simp only [Node.checks, List.mem_append, List.mem_flatten]
  rintro d ((hd | hd) | (⟨cs, hcs, hd⟩ | hd) | hd)
  · exact hextra d hd
  · exact hformat d hd
  · exact hsingle cs hcs d hd
  · exact parts divided hparts d hd
  · exact custom last hlast d hd

end Reads

/-- The nodes that a compiler returns have one property, and the targets that it finds another. -/
structure Yields (c : Compiler Reads) (o : Options) (N : Node → Prop) (K : Target → Prop) :
    Prop where
  read : ∀ {α : Type} (r : Reads α), c.read r = r
  node : ∀ place x n, c.node place x = .ok n → N n
  reference : ∀ place text, c.target place (.reference text) = .ok true → K (.reference text)
  format : ∀ place name s b, o.formats.lookup name = some (.schema s) →
    c.target place (.format name) = .ok b → K (.format name)

section Yields

variable (hc : c.Yields o N K) {location : Path}
include hc

theorem Yields.items {i : Nat} {xs : List Json} {ns : List Node}
    (h : c.items location i xs = .ok ns) : ∀ n ∈ ns, N n := by
  intro n hn
  obtain ⟨x, -, place, hx⟩ := (Paired.of_forall₂ (items_eq_ok h)).right n hn
  exact hc.node place x n hx

theorem Yields.members {ms : Members} {ns : List (String × Node)}
    (h : c.members location ms = .ok ns) : ∀ e ∈ ns, N e.2 := by
  intro e he
  obtain ⟨f, -, -, place, hf⟩ := (Paired.of_forall₂ (members_eq_ok h)).right e he
  exact hc.node place f.2 e.2 hf

theorem Yields.patterns {ms : Members} {ns : List (Pattern × Node)}
    (h : c.patterns location ms = .ok ns) : ∀ e ∈ ns, N e.2 := by
  induction ms generalizing ns with
  | nil =>
    cases h
    exact List.forall_mem_nil _
  | cons e ms ih =>
    obtain ⟨p, -, h⟩ := Reads.bind_eq_ok h
    obtain ⟨n, hn, h⟩ := Reads.bind_eq_ok h
    obtain ⟨rest, hrest, h⟩ := Reads.bind_eq_ok h
    cases h
    exact List.forall_mem_cons.2 ⟨hc.node _ _ n hn, ih hrest⟩

theorem Yields.dependencies {ms : Members} {ds : List (String × Dependency)}
    (h : c.dependencies location ms = .ok ds) : ∀ n ∈ (Check.dependencies ds).nodesHere, N n := by
  induction ms generalizing ds with
  | nil =>
    cases h
    exact List.forall_mem_nil _
  | cons e ms ih =>
    obtain ⟨name, v⟩ := e
    obtain ⟨d, hd, h⟩ := Reads.bind_eq_ok h
    obtain ⟨rest, hrest, h⟩ := Reads.bind_eq_ok h
    cases h
    have hhead : ∀ n, d = .schema n → N n := by
      rintro n rfl
      cases v with
      | string other => cases hd
      | array names =>
        obtain ⟨_, -, hd⟩ := Reads.bind_eq_ok hd
        cases hd
      | _ =>
        obtain ⟨m, hm, hd⟩ := Reads.bind_eq_ok hd
        cases hd
        exact hc.node _ _ _ hm
    have htail := ih hrest
    cases d with
    | names => exact htail
    | schema n => exact List.forall_mem_cons.2 ⟨hhead n rfl, htail⟩

theorem Yields.additionalItems {limit : Nat} {v : Json} {cs : List Check}
    (h : c.additionalItems location limit v = .ok cs) : ∀ d ∈ cs, d.Within N K := by
  cases v with
  | bool b =>
    cases b with
    | true =>
      cases h
      exact List.forall_mem_nil _
    | false =>
      cases h
      exact List.forall_mem_singleton.2 (.leaf rfl rfl rfl)
  | object ps =>
    obtain ⟨n, hn, h⟩ := Reads.bind_eq_ok h
    cases h
    have hn := List.forall_mem_singleton.2 (hc.node _ _ n hn)
    exact List.forall_mem_singleton.2 (.of_below rfl hn rfl)
  | _ => cases (hc.read _).symm.trans h

theorem Yields.checkFormat {v : Json} {cs : List Check}
    (h : c.format location o v = .ok cs) : ∀ d ∈ cs, d.Within N K := by
  cases v with
  | string name =>
    rw [Compiler.format] at h
    split at h
    · next s hs =>
      obtain ⟨b, hb, h⟩ := Reads.bind_eq_ok h
      cases h
      exact List.forall_mem_singleton.2 (.of_target rfl rfl (hc.format _ name s b hs hb))
    · obtain ⟨r, -, h⟩ := Reads.bind_eq_ok h
      cases h
      exact List.forall_mem_singleton.2 (.leaf rfl rfl rfl)
  | _ => cases (hc.read _).symm.trans h

theorem Yields.keyword {ms : Members} {k : Keyword} {v : Json} {cs : List Check}
    (h : c.keyword location ms k v = .ok cs) : ∀ d ∈ cs, d.Within N K := by
  cases k with
  | dependencies =>
    cases v with
    | object entries =>
      obtain ⟨ds, hds, h⟩ := Reads.bind_eq_ok h
      cases h
      exact List.forall_mem_singleton.2 (.of_here (hc.dependencies hds) rfl rfl)
    | _ => cases (hc.read _).symm.trans h
  | additionalProperties =>
    cases v with
    | bool b =>
      cases b with
      | true =>
        cases h
        exact List.forall_mem_nil _
      | false =>
        obtain ⟨declared, -, h⟩ := Reads.bind_eq_ok h
        cases h
        exact List.forall_mem_singleton.2 (.leaf rfl rfl rfl)
    | object ps =>
      obtain ⟨declared, -, h⟩ := Reads.bind_eq_ok h
      obtain ⟨n, hn, h⟩ := Reads.bind_eq_ok h
      cases h
      have hn := List.forall_mem_singleton.2 (hc.node _ _ n hn)
      exact List.forall_mem_singleton.2 (.of_below rfl hn rfl)
    | _ => cases (hc.read _).symm.trans h
  | reference =>
    cases v with
    | string text =>
      obtain ⟨b, hb, h⟩ := Reads.bind_eq_ok h
      cases b with
      | true =>
        cases h
        exact List.forall_mem_singleton.2 (.of_target rfl rfl (hc.reference _ text hb))
      | false =>
        cases h
        exact List.forall_mem_nil _
    | _ => cases (hc.read _).symm.trans h
  | not =>
    obtain ⟨n, hn, h⟩ := Reads.bind_eq_ok h
    cases h
    have hn := List.forall_mem_singleton.2 (hc.node _ _ n hn)
    exact List.forall_mem_singleton.2 (.of_here hn rfl rfl)
  | items =>
    cases v with
    | array xs =>
      cases h
      exact List.forall_mem_nil _
    | _ =>
      obtain ⟨n, hn, h⟩ := Reads.bind_eq_ok h
      cases h
      have hn := List.forall_mem_singleton.2 (hc.node _ _ n hn)
      exact List.forall_mem_singleton.2 (.of_below rfl hn rfl)
  | patternProperties =>
    cases v with
    | object entries =>
      cases entries with
      | nil =>
        cases h
        exact List.forall_mem_nil _
      | cons e entries =>
        obtain ⟨ns, hns, h⟩ := Reads.bind_eq_ok h
        cases h
        exact List.forall_mem_singleton.2
          (.of_below rfl (List.forall_mem_map.2 (hc.patterns hns)) rfl)
    | _ => cases (hc.read _).symm.trans h
  | allOf =>
    cases v with
    | array xs =>
      obtain ⟨ns, hns, h⟩ := Reads.bind_eq_ok h
      cases h
      exact List.forall_mem_singleton.2 (.of_here (hc.items hns) rfl rfl)
    | _ => cases (hc.read _).symm.trans h
  | anyOf | oneOf =>
    cases v with
    | array xs =>
      cases xs with
      | nil =>
        cases h
        exact List.forall_mem_nil _
      | cons x xs =>
        obtain ⟨ns, hns, h⟩ := Reads.bind_eq_ok h
        cases h
        exact List.forall_mem_singleton.2 (.of_here (hc.items hns) rfl rfl)
    | _ => cases (hc.read _).symm.trans h
  | _ =>
    obtain ⟨r, -, h⟩ := Reads.bind_eq_ok h
    cases h
    exact List.forall_mem_map.2 fun r _ => .leaf rfl rfl rfl

theorem Yields.parts {ms : Members} {cs : List Check} (h : c.parts location ms = .ok cs) :
    ∀ d ∈ cs, d.Within N K := by
  rw [Compiler.parts] at h
  split at h
  · obtain ⟨ns, hns, h⟩ := Reads.bind_eq_ok h
    cases h
    exact List.forall_mem_singleton.2 (.of_below rfl (hc.items hns) rfl)
  · split at h
    · obtain ⟨ns, hns, h⟩ := Reads.bind_eq_ok h
      cases h
      exact List.forall_mem_singleton.2
        (.of_below rfl (List.forall_mem_map.2 (hc.members hns)) rfl)
    · cases (hc.read _).symm.trans h
    · cases h
      exact List.forall_mem_nil _

/-- **What a compiled object holds and asks for.** -/
theorem Yields.object {ms : Members} {n : Node} (h : c.object location o ms = .ok n) :
    ∀ d ∈ n.checks, d.Within N K := by
  refine forall_of_object hc.read ?_ ?_ ?_ ?_ ?_ h
  · exact fun cs => customChecks_rules fun r place => .leaf rfl rfl rfl
  · exact fun xs v cs _ _ h => hc.additionalItems h
  · exact fun v cs _ h => hc.checkFormat h
  · exact fun k v cs _ _ h => hc.keyword h
  · exact fun cs h => hc.parts h

end Yields

end Compiler

/-! ## The table of a build -/

variable {o : Options} {root : Json} {n : Node} {T : Subroutines}

/-- What the nodes of settled schemas hold and ask for. -/
theorem Plan.settled_yields :
    (Plan.settled ⟨o, .of root o⟩ T).Yields o (fun m => ∃ y, Plan.Settled ⟨o, .of root o⟩ T y m)
      fun k => (T.lookup k).isSome where
  read _ := rfl
  node place x m h := ⟨x, place, Build.steady_eq_ok.1 h⟩
  reference place text h := by
    rcases lookup_of_compileTarget (Build.steady_eq_ok.1 h) with ⟨hk, -⟩ | ⟨-, hb⟩
    · exact hk
    · cases hb
  format place name s b hs h := by
    rcases lookup_of_compileTarget (Build.steady_eq_ok.1 h) with ⟨hk, -⟩ | ⟨hk, -⟩
    · exact hk
    · rw [Targets.lookup_format hs] at hk
      cases hk

theorem Plan.Settled.within {x : Json} (h : Plan.Settled ⟨o, .of root o⟩ T x n) :
    ∀ d ∈ n.checks, d.Within (fun m => ∃ y, Plan.Settled ⟨o, .of root o⟩ T y m)
      fun k => (T.lookup k).isSome := by
  obtain ⟨location, h⟩ := h.schema
  cases x with
  | object ms => exact Plan.settled_yields.object h
  | bool b =>
    cases h
    exact List.forall_mem_nil _
  | _ => cases h

/-- **The table has every target that a compiled node refers to.** -/
theorem Plan.Settled.lookup_of_refers {x : Json} (h : Plan.Settled ⟨o, .of root o⟩ T x n)
    {k : Target} (hk : n.Refers k) : (T.lookup k).isSome := by
  obtain ⟨m, hm, d, hd, hk⟩ := hk
  have hsettled : ∃ y, Plan.Settled ⟨o, .of root o⟩ T y m := by
    clear hd hk
    induction hm generalizing x with
    | refl => exact ⟨x, h⟩
    | step hd hn _ ih =>
      obtain ⟨y, hy⟩ := (h.within _ hd).1 _ hn
      exact ih hy
  obtain ⟨y, hy⟩ := hsettled
  exact (hy.within d hd).2 k hk

end JsonSchema
