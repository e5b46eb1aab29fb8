import JsonSchema.Proofs.Blaming
import JsonSchema.Proofs.Buildable
import JsonSchema.Proofs.Faults

/-!
# Building from place to place

Compiling a schema compiles the schemas below it and the targets that it names, each at the place
that leads to it. So what is compiled at a place blames the members of the schema object there, and
what cannot be compiled has a fault there, unless a registered keyword has refused its value.

* `Build.Meets`: what a step of a build returns, what it leaves and what it fails with;
* `SchemaError.Points`: an error leads to a fault;
* `Compiler.Goes.keyword`, `Compiler.Goes.object`: a keyword and a schema object, by what is below
  them.
-/

namespace JsonSchema

/-! ## Steps of a build -/

/-- A property of the tables of a build, and one of the faults that it may end with. -/
structure Build.Contract where
  table : Subroutines → Prop
  fault : SchemaError → Prop

namespace Build

/-- A step returns what has the property and leaves a table of the contract, or it fails with a
fault of the contract. -/
def Contract.Allows (K : Contract) {α : Type} (P : α → Prop) :
    Except SchemaError (α × Subroutines) → Prop
  | .ok (a, table) => P a ∧ K.table table
  | .error e => K.fault e

/-- From a table of the contract, a step has an outcome that the contract allows. -/
def Meets (K : Contract) {α : Type} (m : Build α) (P : α → Prop) : Prop :=
  ∀ table, K.table table → K.Allows P (m table)

variable {K : Contract} {α β : Type} {P : α → Prop} {Q : β → Prop}

theorem meets_pure {a : α} (ha : P a) : Meets K (pure a) P := fun _ htable => ⟨ha, htable⟩

theorem meets_lift {r : Reads α} (hr : ∀ a, r = .ok a → P a) (he : ∀ e, r = .error e → K.fault e) :
    Meets K (liftM r) P := by
  intro table htable
  cases r with
  | ok a => exact ⟨hr a rfl, htable⟩
  | error e => exact he e rfl

theorem meets_bind {m : Build α} {f : α → Build β} (hm : Meets K m P)
    (hf : ∀ a, P a → Meets K (f a) Q) : Meets K (m >>= f) Q := by
  intro table htable
  have hrun := hm table htable
  change K.Allows Q (m table >>= fun r => f r.1 r.2)
  cases h : m table with
  | error e =>
    rw [h] at hrun
    exact hrun
  | ok r =>
    rw [h] at hrun
    exact hf r.1 hrun.1 r.2 hrun.2

theorem meets_map {m : Build α} {f : α → β} (hm : Meets K m P) (hf : ∀ a, P a → Q (f a)) :
    Meets K (do return f (← m)) Q :=
  meets_bind hm fun a ha => meets_pure (hf a ha)

theorem meets_mapM {f : α → Build β} {xs : List α} (h : ∀ x ∈ xs, Meets K (f x) Q) :
    Meets K (xs.mapM f) fun ys => ∀ y ∈ ys, Q y := by
  induction xs with
  | nil => exact meets_pure (List.forall_mem_nil _)
  | cons x xs ih =>
    obtain ⟨hx, hxs⟩ := List.forall_mem_cons.1 h
    rw [List.mapM_cons]
    refine meets_bind hx fun y hy => ?_
    exact meets_map (ih hxs) fun ys hys => List.forall_mem_cons.2 ⟨hy, hys⟩

end Build

open Build (Meets meets_pure meets_lift meets_bind meets_map meets_mapM)

/-! ## Errors -/

/-- An error points to a fault: a part of its location leads to a schema, and the rest is the place
of a fault in this schema, of the cause that the error names. -/
def SchemaError.Points (root : Json) (o : Options) (e : SchemaError) : Prop :=
  ∃ (location rest : Path) (x : Json), e.location = location ++ rest ∧
    location.LeadsTo root o x ∧ x.Fault o rest e.cause

/-- A registered keyword refuses its value with the error. -/
def SchemaError.Custom (o : Options) (e : SchemaError) : Prop :=
  ∃ keyword rule ms v place, o.keywords.lookup keyword = some rule ∧ rule ms v place = .error e

theorem customChecks_error {o : Options} {location : Path} {ms rest : Members} {e : SchemaError}
    (h : customChecks o location ms rest = .error e) : e.Custom o := by
  induction rest with
  | nil => cases h
  | cons m rest ih =>
    obtain ⟨keyword, v⟩ := m
    rw [customChecks] at h
    cases hrule : o.keywords.lookup keyword with
    | none =>
      rw [hrule] at h
      exact ih h
    | some rule =>
      rw [hrule] at h
      rcases Reads.bind_eq_error h with h | ⟨check, -, h⟩
      · exact ⟨keyword, rule, ms, v, _, hrule, h⟩
      · exact ih (Reads.map_eq_error h)

/-- Nodes of the table are placed well, and an error points to a fault or is that of a registered
keyword. -/
def Build.placing (root : Json) (o : Options) : Build.Contract where
  table T := ∀ e ∈ T, e.2.Placed root o
  fault e := e.Points root o ∨ e.Custom o

/-! ## One schema object -/

namespace Compiler

variable {root : Json} {o : Options} {ms : Members} {location : Path}

/-- A compiler compiles the schemas and the targets right below a schema object at places that lead
to them. -/
structure Goes (root : Json) (o : Options) (ms : Members) (c : Compiler Build) : Prop where
  node : ∀ {place x}, ms.Position o x → place.LeadsTo root o x →
    Meets (Build.placing root o) (c.node place x) fun n => n.Placed root o
  target : ∀ {place k}, ms.Names o k → (∀ x, k.schema? root o = some x → place.LeadsTo root o x) →
    Meets (Build.placing root o) (c.target place k) fun _ => True
  read : ∀ {α : Type} (r : Reads α), c.read r = liftM r

namespace Goes

variable {c : Compiler Build} (h : c.Goes root o ms)
include h

/-- A reader that fails names a fault of the schema object. -/
theorem reads {α : Type} {r : Reads α} (hplace : location.LeadsTo root o (.object ms))
    (he : ∀ e, r = .error e → e.FaultOf o location ms) :
    Meets (Build.placing root o) (c.read r) fun a => r = .ok a := by
  rw [h.read]
  refine meets_lift (fun a ha => ha) fun e hr => .inl ?_
  obtain ⟨rest, hlocation, hfault⟩ := he e hr
  exact ⟨location, rest, .object ms, hlocation, hplace, .object hfault⟩

theorem fails {α : Type} {P : α → Prop} {keyword expected : String} {v : Json}
    (hplace : location.LeadsTo root o (.object ms)) (hl : ms.lookup keyword = some v)
    (hv : v.Misshapen keyword expected) :
    Meets (Build.placing root o) (c.read (.error (wrongShape location keyword expected))) P := by
  rw [h.read]
  refine meets_lift (by simp) ?_
  rintro _ ⟨⟩
  have hfault : (wrongShape location keyword expected).FaultOf o location ms :=
    faultOf_wrongShape hl hv
  obtain ⟨rest, hlocation, hfault⟩ := hfault
  exact .inl ⟨location, rest, .object ms, hlocation, hplace, .object hfault⟩

/-- A check with a node, compiled at a place that leads to its schema. -/
theorem check {f : Node → Check} {place : Path} {x : Json} (hx : ms.Position o x)
    (hplace : place.LeadsTo root o x)
    (hf : ∀ n : Node, n.Placed root o → (f n).Placed root o location ms) :
    Meets (Build.placing root o) (do return [f (← c.node place x)])
      (Check.AllPlaced root o location ms) :=
  meets_map (h.node hx hplace) fun n hn => List.forall_mem_singleton.2 (hf n hn)

theorem items {place : Path} {xs : List Json} (hxs : ∀ x ∈ xs, ms.Position o x)
    (hplace : place.stand? root o = some (.schemas (.array xs))) :
    Meets (Build.placing root o) (c.items place 0 xs) fun ns => ∀ n ∈ ns, n.Placed root o := by
  have key : ∀ (ys : List Json) (i : Nat), (∀ j, xs[i + j]? = ys[j]?) →
      Meets (Build.placing root o) (c.items place i ys) fun ns => ∀ n ∈ ns, n.Placed root o := by
    intro ys
    induction ys with
    | nil => exact fun i _ => meets_pure (List.forall_mem_nil _)
    | cons y ys ih =>
      intro i hget
      have hy : xs[i]? = some y := by simpa using hget 0
      have hrest : ∀ j, xs[i + 1 + j]? = ys[j]? := by
        intro j
        rw [Nat.add_assoc, Nat.add_comm 1 j]
        simpa using hget (j + 1)
      refine meets_bind (h.node (hxs y (List.mem_of_getElem? hy)) ?_) fun n hn => ?_
      · exact Path.leadsTo_of_schemas hplace hy
      · exact meets_map (ih (i + 1) hrest) fun ns hns => List.forall_mem_cons.2 ⟨hn, hns⟩
  exact key xs 0 fun j => by rw [Nat.zero_add]

theorem members {place : Path} {ps : Members}
    (hps : ∀ e ∈ ps, ms.Position o e.2 ∧ Path.LeadsTo root o (place ++ [.name e.1]) e.2) :
    Meets (Build.placing root o) (c.members place ps) fun es => ∀ e ∈ es, e.2.Placed root o := by
  induction ps with
  | nil => exact meets_pure (List.forall_mem_nil _)
  | cons e ps ih =>
    obtain ⟨⟨hposition, hplace⟩, hps⟩ := List.forall_mem_cons.1 hps
    refine meets_bind (h.node hposition hplace) fun n hn => ?_
    exact meets_map (ih hps) fun es hes => List.forall_mem_cons.2 ⟨hn, hes⟩

theorem patterns {ps rest : Members} (hplace : location.LeadsTo root o (.object ms))
    (hl : ms.lookup "patternProperties" = some (.object ps)) (hrest : rest ⊆ ps)
    (hps : ∀ e ∈ ps, ms.Position o e.2 ∧
      Path.LeadsTo root o (location ++ [.name "patternProperties"] ++ [.name e.1]) e.2) :
    Meets (Build.placing root o) (c.patterns (location ++ [.name "patternProperties"]) rest)
      fun es => ∀ e ∈ es, e.2.Placed root o := by
  induction rest with
  | nil => exact meets_pure (List.forall_mem_nil _)
  | cons e rest ih =>
    obtain ⟨he, hrest⟩ := List.cons_subset.1 hrest
    refine meets_bind (h.reads hplace fun error herror => ?_) fun p _ => ?_
    · rw [List.append_assoc] at herror
      exact readPattern_fault hl (List.mem_map_of_mem he) herror
    · refine meets_bind (h.node (hps e he).1 (hps e he).2) fun n hn => ?_
      exact meets_map (ih hrest) fun es hes => List.forall_mem_cons.2 ⟨hn, hes⟩

theorem dependency {entries : Members} {e : String × Json}
    (hplace : location.LeadsTo root o (.object ms))
    (hl : ms.lookup "dependencies" = some (.object entries))
    (he : entries.lookup e.1 = some e.2)
    (hposition : e.2 ∈ Keyword.dependencies.schemas (.object entries) → ms.Position o e.2)
    (hmem : e ∈ entries) :
    Meets (Build.placing root o)
      (c.dependency (location ++ [.name "dependencies"] ++ [.name e.1]) e.2)
      fun d => d.Placed root o location entries := by
  obtain ⟨key, v⟩ := e
  have hkey : (entries.lookup key).isSome := by
    rw [he]
    rfl
  have hnames : ∀ names : List String,
      (Dependency.names names (location ++ [.name "dependencies"] ++ [.name key])).Placed root o
        location entries := by
    intro names
    rw [List.append_assoc]
    exact .names hkey
  have hseveral := hplace.stand?_several hl (by decide)
  have hschema : v ∈ Keyword.dependencies.schemas (.object entries) →
      Meets (Build.placing root o)
        (do return .schema (← c.node (location ++ [.name "dependencies"] ++ [.name key]) v))
        (Dependency.Placed root o location entries) := by
    intro hv
    exact meets_map (h.node (hposition hv) (Path.leadsTo_of_schemas hseveral he))
      fun n hn => .schema hn
  cases v with
  | string other => exact meets_pure (hnames [other])
  | array names =>
    refine meets_map (h.reads hplace fun error herror => ?_) fun ns _ => hnames ns
    rw [List.append_assoc] at herror
    exact readNames_fault hl he herror
  | _ => exact hschema (by simpa [Keyword.schemas] using ⟨key, hmem⟩)

theorem dependencies {entries rest : Members} (hplace : location.LeadsTo root o (.object ms))
    (hl : ms.lookup "dependencies" = some (.object entries)) (hd : (Json.object entries).distinct)
    (hposition : ∀ x ∈ Keyword.dependencies.schemas (.object entries), ms.Position o x)
    (hrest : rest ⊆ entries) :
    Meets (Build.placing root o) (c.dependencies (location ++ [.name "dependencies"]) rest)
      fun es => ∀ e ∈ es, e.2.Placed root o location entries := by
  induction rest with
  | nil => exact meets_pure (List.forall_mem_nil _)
  | cons e rest ih =>
    obtain ⟨he, hrest⟩ := List.cons_subset.1 hrest
    have hlookup : entries.lookup e.1 = some e.2 :=
      lookup_eq_some_of_mem (Json.distinct_object.1 hd).1 he
    refine meets_bind (h.dependency hplace hl hlookup (hposition e.2) he) fun d hdep => ?_
    exact meets_map (ih hrest) fun es hes => List.forall_mem_cons.2 ⟨hdep, hes⟩

theorem additionalItems {xs : List Json} {v : Json} (hplace : location.LeadsTo root o (.object ms))
    (ht : tuple? ms = some xs) (hl : ms.lookup "additionalItems" = some v) :
    Meets (Build.placing root o) (c.additionalItems location xs.length v)
      (Check.AllPlaced root o location ms) := by
  have hsome : (ms.lookup "additionalItems").isSome := by rw [hl]; rfl
  cases v with
  | bool b =>
    cases b with
    | true => exact meets_pure (List.forall_mem_nil _)
    | false =>
      refine meets_pure (List.forall_mem_singleton.2 (.of_rule hsome ?_))
      rintro kind ⟨⟩
      rfl
  | object ps =>
    refine h.check (.additionalItems ht hl) (hplace.single hl (by decide)) fun n hn => ?_
    exact .of_passesOn rfl (List.forall_mem_singleton.2 hn)
  | _ => exact h.fails hplace hl (.schema (by decide) rfl)

theorem format {v : Json} (hplace : location.LeadsTo root o (.object ms))
    (hl : ms.lookup "format" = some v) :
    Meets (Build.placing root o) (c.format location o v)
      (Check.AllPlaced root o location ms) := by
  cases v with
  | string name =>
    rw [Compiler.format]
    split
    · next s hs =>
      refine meets_bind (h.target (.format hl hs) fun x hx => hplace.target hl rfl hx) fun _ _ => ?_
      exact meets_pure (List.forall_mem_singleton.2 (.of_passesOn rfl (List.forall_mem_nil _)))
    · next hs =>
      refine meets_map (h.reads hplace fun e he => readFormat_fault hl hs he) fun r hr => ?_
      refine List.forall_mem_singleton.2 ⟨fun kind place hblames => ?_, List.forall_mem_nil _⟩
      cases hblames with
      | rule hkind =>
        rw [readFormat_covers hr hkind]
        exact ⟨_, rfl, .format hl⟩
      | verdict hnone => cases hnone
  | _ => exact h.fails hplace hl (.string (by decide) (by simp))

/-- The check of a keyword that needs no schema. -/
theorem rule {k : Keyword} {v : Json} (hplace : location.LeadsTo root o (.object ms))
    (hl : ms.lookup k.name = some v) :
    Meets (Build.placing root o)
      (do return (← c.read (k.rule? location ms v)).toList.map fun r =>
        Check.rule r (location ++ [.name k.name]))
      (Check.AllPlaced root o location ms) := by
  have hsome : (ms.lookup k.name).isSome := by rw [hl]; rfl
  refine meets_map (h.reads hplace fun e he => Keyword.rule?_fault hl he) fun r? hr => ?_
  refine List.forall_mem_map.2 fun r hmem => .of_rule hsome fun kind hkind => ?_
  rw [Option.mem_toList] at hmem
  exact Keyword.rule?_covers (hmem ▸ hr) hkind

/-- **The checks of a keyword are placed well**, and what is wrong with its value is a fault of the
object. -/
theorem keyword {k : Keyword} {v : Json} (hplace : location.LeadsTo root o (.object ms))
    (hk : o.keywords.lookup k.name = none) (hl : ms.lookup k.name = some v) (hd : v.distinct) :
    Meets (Build.placing root o) (c.keyword location ms k v)
      (Check.AllPlaced root o location ms) := by
  have hsome : (ms.lookup k.name).isSome := by rw [hl]; rfl
  have hposition : ∀ x ∈ k.schemas v, ms.Position o x := fun x hx => .keyword hk hl hx
  -- the nodes of such a check all run on the value itself, and there are none below
  have hitems : ∀ {xs : List Json}, v = .array xs → k.name ∈ Stand.several →
      (∀ x ∈ xs, ms.Position o x) → Meets (Build.placing root o)
        (c.items (location ++ [.name k.name]) 0 xs) fun ns => ∀ n ∈ ns ++ [], n.Placed root o := by
    rintro xs rfl hseveral hxs
    simp only [List.append_nil]
    exact h.items hxs (hplace.stand?_several hl hseveral)
  -- one case for each way in which a value holds schemas, as in `Compiler.keyword`
  cases k with
  | dependencies =>
    cases v with
    | object entries =>
      refine meets_map (h.dependencies hplace hl hd hposition (List.Subset.refl _)) fun es hes => ?_
      exact List.forall_mem_singleton.2 (.dependencies hl hes)
    | _ => exact h.fails hplace hl (.object (by decide) (by simp))
  | additionalProperties =>
    cases v with
    | bool b =>
      cases b with
      | true => exact meets_pure (List.forall_mem_nil _)
      | false =>
        refine meets_map (h.reads hplace fun e he => Declared.read_fault he) fun d _ => ?_
        exact List.forall_mem_singleton.2 (.closed hsome)
    | object ps =>
      refine meets_bind (h.reads hplace fun e he => Declared.read_fault he) fun d _ => ?_
      refine h.check (hposition _ (by simp [Keyword.schemas])) (hplace.single hl (by decide)) ?_
      exact fun n hn => .of_passesOn rfl (List.forall_mem_singleton.2 hn)
    | _ => exact h.fails hplace hl (.schema (by decide) rfl)
  | reference =>
    cases v with
    | string text =>
      refine meets_map (h.target (.reference hk hl) fun x hx => hplace.target hl rfl hx) ?_
      intro compiled _
      cases compiled with
      | true =>
        exact List.forall_mem_singleton.2 (.of_verdict hsome rfl rfl (List.forall_mem_nil _))
      | false => exact List.forall_mem_nil _
    | _ => exact h.fails hplace hl (.string (by decide) (by simp))
  | not =>
    refine h.check (hposition v (by simp [Keyword.schemas])) (hplace.single hl (by decide)) ?_
    exact fun n hn => .of_verdict hsome rfl rfl (List.forall_mem_singleton.2 hn)
  | items =>
    cases v with
    | array xs => exact meets_pure (List.forall_mem_nil _)
    | _ =>
      refine h.check (hposition _ (by simp [Keyword.schemas])) (hplace.items hl (by simp)) ?_
      exact fun n hn => .of_passesOn rfl (List.forall_mem_singleton.2 hn)
  | patternProperties =>
    cases v with
    | object entries =>
      cases entries with
      | nil => exact meets_pure (List.forall_mem_nil _)
      | cons e entries =>
        refine meets_map (h.patterns hplace hl (List.Subset.refl _) ?_) fun es hes => ?_
        · intro e' he
          have hseveral := hplace.stand?_several hl (by decide)
          exact ⟨hposition _ (List.mem_map_of_mem he), Path.leadsTo_of_mem hseveral hd he⟩
        · exact List.forall_mem_singleton.2 (.of_passesOn rfl (List.forall_mem_map.2 hes))
    | _ => exact h.fails hplace hl (.object (by decide) (by simp))
  | allOf =>
    cases v with
    | array xs =>
      refine meets_map (hitems rfl (by decide) hposition) fun ns hns => ?_
      exact List.forall_mem_singleton.2 (.of_passesOn rfl hns)
    | _ => exact h.fails hplace hl (.array (by decide) (by simp))
  | anyOf | oneOf =>
    cases v with
    | array xs =>
      cases xs with
      | nil => exact meets_pure (List.forall_mem_nil _)
      | cons x xs =>
        refine meets_map (hitems rfl (by decide) hposition) fun ns hns => ?_
        exact List.forall_mem_singleton.2 (.of_verdict hsome rfl rfl hns)
    | _ => exact h.fails hplace hl (.array (by decide) (by simp))
  | _ => exact h.rule hplace hl

theorem parts (hplace : location.LeadsTo root o (.object ms)) (hd : (Json.object ms).distinct) :
    Meets (Build.placing root o) (c.parts location ms)
      (Check.AllPlaced root o location ms) := by
  rw [Compiler.parts]
  cases ht : tuple? ms with
  | some xs =>
    have hl := tuple?_eq_some.1 ht
    refine meets_map (h.items (fun x hx => .tuple ht hx) (hplace.stand?_tuple hl)) fun ns hns => ?_
    exact List.forall_mem_singleton.2 (.of_passesOn rfl hns)
  | none =>
    cases hl : ms.lookup "properties" with
    | none => exact meets_pure (List.forall_mem_nil _)
    | some v =>
      have hv : v.distinct := Json.distinct_of_lookup hd hl
      cases v with
      | object ps =>
        refine meets_map (h.members fun e he => ⟨.property ht hl he, ?_⟩) fun es hes => ?_
        · exact Path.leadsTo_of_mem (hplace.stand?_several hl (by decide)) hv he
        · exact List.forall_mem_singleton.2 (.of_passesOn rfl (List.forall_mem_map.2 hes))
      | _ => exact h.fails hplace hl (.object (by decide) (by simp))

theorem custom (hd : (Json.object ms).distinct) :
    Meets (Build.placing root o) (c.read (customChecks o location ms ms))
      (Check.AllPlaced root o location ms) := by
  rw [h.read]
  refine meets_lift (fun cs hcs => ?_) fun e he => .inr (customChecks_error he)
  exact customChecks_placed hd (List.Subset.refl ms) hcs

/-- **A schema object goes to a node that is placed well**, or it has a fault. -/
theorem object (hplace : location.LeadsTo root o (.object ms)) (hd : (Json.object ms).distinct) :
    Meets (Build.placing root o) (c.object location o ms) fun n => n.Placed root o := by
  refine meets_bind (h.reads hplace fun e he => checkKeywords_fault he) fun _ _ => ?_
  refine meets_bind (h.reads hplace fun e he => readHeading_fault he) fun heading hheading => ?_
  refine meets_bind (P := Check.AllPlaced root o location ms) ?_ fun extra hextra => ?_
  · cases ht : tuple? ms with
    | none => exact meets_pure (List.forall_mem_nil _)
    | some xs =>
      cases hl : ms.lookup "additionalItems" with
      | none => exact meets_pure (List.forall_mem_nil _)
      | some v => exact h.additionalItems hplace ht hl
  refine meets_bind (P := Check.AllPlaced root o location ms) ?_ fun format hformat => ?_
  · cases hl : ms.lookup "format" with
    | none => exact meets_pure (List.forall_mem_nil _)
    | some v => exact h.format hplace hl
  refine meets_bind (meets_mapM (Q := Check.AllPlaced root o location ms)
    fun k _ => ?_) fun single hsingle => ?_
  · cases hk : o.keywords.lookup k.name with
    | some rule => exact meets_pure (List.forall_mem_nil _)
    | none =>
      cases hl : ms.lookup k.name with
      | none => exact meets_pure (List.forall_mem_nil _)
      | some v => exact h.keyword hplace hk hl (Json.distinct_of_lookup hd hl)
  refine meets_bind (h.parts hplace hd) fun parts hparts => ?_
  refine meets_bind (h.custom hd) fun custom hcustom => ?_
  refine meets_pure (Node.placed_mk hplace hheading ?_)
  have hflat : Check.AllPlaced root o location ms single.flatten := by
    intro c hc
    obtain ⟨cs, hcs, hc⟩ := List.mem_flatten.1 hc
    exact hsingle cs hcs c hc
  simp only [List.forall_mem_append]
  exact ⟨⟨hextra, hformat⟩, ⟨hflat, hparts⟩, hcustom⟩

end Goes

end Compiler

end JsonSchema
