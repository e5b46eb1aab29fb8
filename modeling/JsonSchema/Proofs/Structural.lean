import JsonSchema.Proofs.Divided
import JsonSchema.Proofs.Origins

/-!
# Structural schemas

A schema is structural if only `properties`, `items`, `additionalItems` and `additionalProperties`
change parts of a value, each the parts that the others leave to it. Other keywords may go to the
same parts again: `allOf`, `$ref`, `dependencies`, `patternProperties` and formats that are schemas.
What stands under `not`, `anyOf` and `oneOf` is free, since these are only asked for verdicts.

* `Members.Governs`, `Json.Structural`: the schemas that change parts, and structural schemas;
* `Compiler.governing`: the checks of the keyword that changes a part;
* `Plan.Settled.divided`: structural schemas compile to nodes that divide values;
* `Validator.validateMut_twice`: a second run changes nothing.
-/

namespace JsonSchema

/-! ## Structural schemas -/

/-- The keywords with schemas that may change what another keyword of the same object changes. -/
def Keyword.overlapping : List Keyword := [.allOf, .reference, .dependencies, .patternProperties]

namespace Members

/-- The schemas right below a schema object that change parts of a value. -/
inductive Governs (o : Options) (ms : Members) : Json → Prop
  | keyword {k : Keyword} {v x : Json} : k = .items ∨ k = .additionalProperties →
      o.keywords.lookup k.name = none → ms.lookup k.name = some v → x ∈ k.schemas v → Governs o ms x
  | tuple {xs : List Json} {x : Json} : tuple? ms = some xs → x ∈ xs → Governs o ms x
  | additionalItems {xs : List Json} {ps : Members} : tuple? ms = some xs →
      ms.lookup "additionalItems" = some (.object ps) → Governs o ms (.object ps)
  | property {ps : Members} {e : String × Json} : tuple? ms = none →
      ms.lookup "properties" = some (.object ps) → e ∈ ps → Governs o ms e.2

theorem Governs.position {o : Options} {ms : Members} {x : Json} (h : ms.Governs o x) :
    ms.Position o x := by
  cases h with
  | keyword _ hk hv hx => exact .keyword hk hv hx
  | tuple ht hx => exact .tuple ht hx
  | additionalItems ht hl => exact .additionalItems ht hl
  | property ht hl he => exact .property ht hl he

end Members

/-- No schema object that changes a value, or a part of it, has an overlapping keyword, unless a
registered keyword replaces it, or a format that is a schema. -/
inductive Json.Structural (o : Options) : Json → Prop
  | object {ms : Members} :
      (∀ k ∈ Keyword.overlapping, o.keywords.lookup k.name = none → ms.lookup k.name = none) →
      (∀ name s, ms.lookup "format" = some (.string name) →
        o.formats.lookup name ≠ some (.schema s)) →
      (∀ x, ms.Governs o x → Structural o x) → Structural o (.object ms)
  | other {v : Json} : (∀ ms, v ≠ .object ms) → Structural o v

/-- A schema that mentions no overlapping keyword, with options that register no schema as a format,
is structural. -/
theorem Json.Structural.of_mentions {o : Options}
    (ho : ∀ name s, o.formats.lookup name ≠ some (.schema s)) {x : Json}
    (hx : ∀ k ∈ Keyword.overlapping, x.mentions k.name = false) : x.Structural o := by
  induction hsize : sizeOf x using Nat.strong_induction_on generalizing x with
  | _ size ih =>
  subst hsize
  cases x with
  | object ms =>
    refine .object (fun k hk _ => ?_) (fun name s _ => ho name s) fun y hy => ?_
    · cases hl : ms.lookup k.name with
      | none => rfl
      | some v =>
        have hmentions : (Json.object ms).mentions k.name :=
          Json.mentions_object.2 ⟨_, mem_of_lookup hl, .inl rfl⟩
        rw [hx k hk] at hmentions
        cases hmentions
    · refine ih _ hy.position.sizeOf_lt (fun k hk => ?_) rfl
      rw [← Bool.not_eq_true]
      intro hmentions
      simpa [hx k hk] using (Json.inside_of_position hy.position).mentions hmentions
  | _ => exact .other fun _ h => by cases h

/-! ## Compiling structural schemas -/

/-- The checks of the keyword that changes the part of a value at a segment. -/
def Compiler.governing (c : Compiler Reads) (location : Path) (ms : Members) :
    Segment → Reads (List Check)
  | .name name =>
    if name ∈ Declared.namesOf ms then c.parts location ms
    else match ms.lookup "additionalProperties" with
      | some v => c.keyword location ms .additionalProperties v
      | none => .ok []
  | .index i =>
    match tuple? ms with
    | none =>
      match ms.lookup "items" with
      | some v => c.keyword location ms .items v
      | none => .ok []
    | some xs =>
      if i < xs.length then c.parts location ms
      else match ms.lookup "additionalItems" with
        | some v => c.additionalItems location xs.length v
        | none => .ok []

/-- A check of a structural schema object is the one that governs the parts that it covers, with
nodes of schemas that govern parts. -/
structure Compiler.Governed (c : Compiler Reads) (o : Options) (location : Path) (ms : Members)
    (d : Check) : Prop where
  parting : d.Parting
  governing : ∀ seg, d.Covers seg → c.governing location ms seg = .ok [d]
  sent : ∀ k seg, d.Sends k (some seg) → ∃ place x, ms.Governs o x ∧ c.node place x = .ok k

/-- The checks that leave values as they are. -/
def Check.looks : Check → Bool
  | rule .. | negation .. | anyOf .. | oneOf .. => true
  | _ => false

namespace Compiler

section

variable {c : Compiler Reads} {o : Options} {location : Path} {ms : Members} {cs : List Check}

/-- Covering segments is sending nodes to them, but for the check that rejects names. -/
theorem Governed.of_sends {d : Check} (parting : d.Parting)
    (hd : ∀ declared place, d ≠ .closed declared place)
    (hs : ∀ k seg, d.Sends k (some seg) → c.governing location ms seg = .ok [d] ∧
      ∃ place x, ms.Governs o x ∧ c.node place x = .ok k) : c.Governed o location ms d where
  parting := parting
  governing seg h := by
    cases h with
    | sent hk => exact (hs _ seg hk).1
    | rejected => exact absurd rfl (hd _ _)
  sent k seg hk := (hs k seg hk).2

/-- Rules, and checks that only ask for verdicts, cover nothing. -/
theorem Governed.looks {d : Check} (h : d.looks = true) : c.Governed o location ms d := by
  cases d with
  | rule | negation | anyOf | oneOf =>
    refine .of_sends ⟨rfl, (fun _ h => by cases h), fun h => by cases h⟩
      (fun _ _ h => by cases h) ?_
    intro k seg hk
    cases hk
  | _ => cases h

/-- A check with one node, which it runs on parts of the value only. -/
theorem Governed.of_node {d : Check} {k : Node} {place : Path} {x : Json} (ht : d.target? = none)
    (hhere : d.nodesHere = []) (hbelow : d.nodesBelow = [k]) (hx : ms.Governs o x)
    (hk : c.node place x = .ok k)
    (hs : ∀ seg, d.Sends k (some seg) → c.governing location ms seg = .ok [d]) :
    c.Governed o location ms d := by
  have heq : ∀ {j seg}, d.Sends j (some seg) → j = k := fun hj =>
    List.mem_singleton.1 (hbelow ▸ hj.mem_below)
  refine .of_sends ⟨ht, fun j hj => ?_, fun hi hj => (heq hi).trans (heq hj).symm⟩ ?_
    fun j seg hj => ?_
  · exact List.not_mem_nil (hhere ▸ hj.mem_here)
  · rintro declared place rfl
    cases hbelow
  · obtain rfl := heq hj
    exact ⟨hs seg hj, place, x, hx, hk⟩

theorem not_mem_namesOf {declared : Declared} (h : Declared.read location ms = .ok declared)
    {name : String} (hname : declared.has name = false) : name ∉ Declared.namesOf ms := by
  obtain ⟨patterns, -, h⟩ := Reads.bind_eq_ok h
  cases h
  intro hmem
  simp [Declared.has, hmem] at hname

theorem namesOf_of_properties {ps : Members} (ht : tuple? ms = none)
    (hl : ms.lookup "properties" = some (.object ps)) :
    Declared.namesOf ms = ps.map Prod.fst := by
  rw [Declared.namesOf_eq, ht, hl]
  rfl

section

variable (hread : ∀ {α : Type} (r : Reads α), c.read r = r)
include hread

theorem governed_additionalItems {xs : List Json} {v : Json} (ht : tuple? ms = some xs)
    (hv : ms.lookup "additionalItems" = some v)
    (h : c.additionalItems location xs.length v = .ok cs) :
    ∀ d ∈ cs, c.Governed o location ms d := by
  have hrun := h
  cases v with
  | bool b =>
    cases b with
    | true =>
      cases h
      exact List.forall_mem_nil _
    | false =>
      cases h
      exact List.forall_mem_singleton.2 (.looks rfl)
  | object ps =>
    obtain ⟨n, hn, h⟩ := Reads.bind_eq_ok h
    cases h
    have hgoverns : ms.Governs o (.object ps) := .additionalItems ht hv
    refine List.forall_mem_singleton.2 (.of_node rfl rfl rfl hgoverns hn fun seg hk => ?_)
    cases hk with
    | itemPast hlimit => simpa only [governing, ht, if_neg (Nat.not_lt.2 hlimit), hv] using hrun
  | _ => cases (hread _).symm.trans h

theorem governed_additionalProperties {v : Json}
    (ho : o.keywords.lookup Keyword.additionalProperties.name = none)
    (hv : ms.lookup Keyword.additionalProperties.name = some v)
    (h : c.keyword location ms .additionalProperties v = .ok cs) :
    ∀ d ∈ cs, c.Governed o location ms d := by
  have hgoverning : ∀ declared name, Declared.read location ms = .ok declared →
      declared.has name = false → c.governing location ms (.name name) = .ok cs := by
    intro declared name hdeclared hname
    have hv : ms.lookup "additionalProperties" = some v := hv
    simpa only [governing, if_neg (not_mem_namesOf hdeclared hname), hv] using h
  cases v with
  | bool b =>
    cases b with
    | true =>
      cases h
      exact List.forall_mem_nil _
    | false =>
      obtain ⟨declared, hdeclared, h⟩ := Reads.bind_eq_ok h
      rw [hread] at hdeclared
      cases h
      refine List.forall_mem_singleton.2 ⟨⟨rfl, (fun _ h => by cases h), fun h => by cases h⟩,
        fun seg hseg => ?_, fun _ _ h => by cases h⟩
      cases hseg with
      | sent hk => cases hk
      | rejected hname => exact hgoverning declared _ hdeclared hname
  | object ps =>
    obtain ⟨declared, hdeclared, h⟩ := Reads.bind_eq_ok h
    rw [hread] at hdeclared
    obtain ⟨n, hn, h⟩ := Reads.bind_eq_ok h
    cases h
    have hgoverns : ms.Governs o (.object ps) :=
      .keyword (.inr rfl) ho hv (List.mem_singleton_self _)
    refine List.forall_mem_singleton.2 (.of_node rfl rfl rfl hgoverns hn fun seg hk => ?_)
    cases hk with
    | additional hname => exact hgoverning declared _ hdeclared hname
  | _ => cases (hread _).symm.trans h

omit hread in
theorem governed_items {v : Json} (ho : o.keywords.lookup Keyword.items.name = none)
    (hv : ms.lookup Keyword.items.name = some v) (h : c.keyword location ms .items v = .ok cs) :
    ∀ d ∈ cs, c.Governed o location ms d := by
  by_cases hx : ∃ xs, v = .array xs
  · -- a list of schemas is a tuple, which is compiled apart
    obtain ⟨xs, rfl⟩ := hx
    cases h
    exact List.forall_mem_nil _
  · have hv' : ms.lookup "items" = some v := hv
    have ht : tuple? ms = none := by
      rw [Option.eq_none_iff_forall_ne_some]
      intro xs hxs
      exact hx ⟨xs, Option.some.inj (hv'.symm.trans (tuple?_eq_some.1 hxs))⟩
    have hschemas : v ∈ Keyword.items.schemas v := by
      cases v with
      | array xs => exact absurd ⟨xs, rfl⟩ hx
      | _ => exact List.mem_singleton_self _
    have hrun : ∀ i, c.governing location ms (.index i) = .ok cs := by
      intro i
      simpa only [governing, ht, hv'] using h
    obtain ⟨n, hn, rfl⟩ : ∃ n, c.node (location ++ [.name Keyword.items.name]) v = .ok n ∧
        cs = [.items n] := by
      cases v with
      | array xs => exact absurd ⟨xs, rfl⟩ hx
      | _ =>
        obtain ⟨n, hn, h⟩ := Reads.bind_eq_ok h
        cases h
        exact ⟨n, hn, rfl⟩
    have hgoverns : ms.Governs o v := .keyword (.inl rfl) ho hv hschemas
    refine List.forall_mem_singleton.2 (.of_node rfl rfl rfl hgoverns hn fun seg hk => ?_)
    cases hk with
    | item => exact hrun _

theorem governed_keyword {k : Keyword} {v : Json} (ho : o.keywords.lookup k.name = none)
    (hv : ms.lookup k.name = some v) (hk : k ∉ Keyword.overlapping)
    (h : c.keyword location ms k v = .ok cs) : ∀ d ∈ cs, c.Governed o location ms d := by
  cases k with
  | dependencies | reference | patternProperties | allOf => exact absurd (by decide) hk
  | additionalProperties => exact governed_additionalProperties hread ho hv h
  | items => exact governed_items ho hv h
  | not =>
    obtain ⟨n, -, h⟩ := Reads.bind_eq_ok h
    cases h
    exact List.forall_mem_singleton.2 (.looks rfl)
  | anyOf | oneOf =>
    cases v with
    | array xs =>
      cases xs with
      | nil =>
        cases h
        exact List.forall_mem_nil _
      | cons x xs =>
        obtain ⟨ns, -, h⟩ := Reads.bind_eq_ok h
        cases h
        exact List.forall_mem_singleton.2 (.looks rfl)
    | _ => cases (hread _).symm.trans h
  | _ =>
    obtain ⟨r, -, h⟩ := Reads.bind_eq_ok h
    cases h
    exact List.forall_mem_map.2 fun r _ => .looks rfl

omit hread in
theorem governed_tuple {xs : List Json} (ht : tuple? ms = some xs)
    (h : c.parts location ms = .ok cs) : ∀ d ∈ cs, c.Governed o location ms d := by
  have hrun := h
  rw [parts, ht] at h
  obtain ⟨ns, hns, h⟩ := Reads.bind_eq_ok h
  cases h
  have hns := items_eq_ok hns
  refine List.forall_mem_singleton.2
    (.of_sends (.tuple ns) (fun _ _ h => by cases h) fun k seg hk => ?_)
  cases hk with
  | @tupleItem _ _ i hk =>
    obtain ⟨x, hx, place, hn⟩ := (Paired.of_forall₂ hns).right _ (List.fst_mem_of_mem_zipIdx hk)
    have hi : i < xs.length := hns.length_eq ▸ List.snd_lt_of_mem_zipIdx hk
    refine ⟨?_, place, x, .tuple ht hx, hn⟩
    simpa only [governing, ht, if_pos hi] using hrun

omit hread in
theorem governed_properties {ps : Members} (ht : tuple? ms = none)
    (hl : ms.lookup "properties" = some (.object ps)) (hd : (Json.object ps).distinct)
    (h : c.parts location ms = .ok cs) : ∀ d ∈ cs, c.Governed o location ms d := by
  have hrun := h
  rw [parts, ht, hl] at h
  obtain ⟨entries, hentries, h⟩ := Reads.bind_eq_ok h
  cases h
  have hnames : (entries.map Prod.fst).Nodup := by
    rw [map_fst_of_members hentries]
    exact (Json.distinct_object.1 hd).1
  refine List.forall_mem_singleton.2
    (.of_sends (.properties hnames) (fun _ _ h => by cases h) fun k seg hk => ?_)
  cases hk with
  | @property _ _ f hf =>
    obtain ⟨e, he, hname, place, hn⟩ := (Paired.of_forall₂ (members_eq_ok hentries)).right f hf
    have hmem : f.1 ∈ Declared.namesOf ms := by
      rw [namesOf_of_properties ht hl, hname]
      exact List.mem_map_of_mem he
    refine ⟨?_, place, e.2, .property ht hl he, hn⟩
    simpa only [governing, if_pos hmem] using hrun

theorem governed_parts (hd : (Json.object ms).distinct) (h : c.parts location ms = .ok cs) :
    ∀ d ∈ cs, c.Governed o location ms d := by
  cases ht : tuple? ms with
  | some xs => exact governed_tuple ht h
  | none =>
    cases hl : ms.lookup "properties" with
    | none =>
      rw [parts, ht, hl] at h
      cases h
      exact List.forall_mem_nil _
    | some v =>
      cases v with
      | object ps =>
        have hps := Json.distinct_of_lookup hd hl
        exact governed_properties ht hl hps h
      | _ =>
        rw [parts, ht, hl] at h
        cases (hread _).symm.trans h

theorem governed_object {n : Node} (hs : (Json.object ms).Structural o)
    (hd : (Json.object ms).distinct) (h : c.object location o ms = .ok n) :
    ∀ d ∈ n.checks, c.Governed o location ms d := by
  cases hs with
  | other hv => exact absurd rfl (hv ms)
  | object hoverlapping hformat _ =>
    refine forall_of_object hread (fun cs => customChecks_rules fun r place => .looks rfl)
      (fun xs v cs ht hv h => governed_additionalItems hread ht hv h) (fun v cs hv h => ?_)
      (fun k v cs ho hv h => governed_keyword hread ho hv (fun hk => ?_) h)
      (fun cs h => governed_parts hread hd h) h
    · cases v with
      | string name =>
        rw [Compiler.format] at h
        split at h
        · next s hschema => exact absurd hschema (hformat name s hv)
        · obtain ⟨r, -, h⟩ := Reads.bind_eq_ok h
          cases h
          exact List.forall_mem_singleton.2 (.looks rfl)
      | _ => cases (hread _).symm.trans h
    · rw [hoverlapping k hk ho] at hv
      cases hv

end

end

end Compiler

/-! ## Nodes of structural schemas -/

section

variable {o : Options} {ms : Members} {x root : Json} {n : Node} {T : Subroutines}

theorem Members.Position.distinct (h : ms.Position o x) (hd : (Json.object ms).distinct) :
    x.distinct := by
  obtain ⟨v, hv, rfl | hx⟩ := h.part
  · exact Json.distinct_of_mem_parts hd hv
  · exact Json.distinct_of_mem_parts (Json.distinct_of_mem_parts hd hv) hx

theorem Members.Position.height_lt (h : ms.Position o x) :
    x.height < (Json.object ms).height := by
  obtain ⟨v, hv, rfl | hx⟩ := h.part
  · exact Json.height_lt_of_mem_parts hv
  · exact (Json.height_lt_of_mem_parts hx).trans (Json.height_lt_of_mem_parts hv)

/-- **The node of a structural schema divides values**, with no more levels than the schema has. -/
theorem Plan.Settled.divided (h : Plan.Settled ⟨o, .of root o⟩ T x n) (hs : x.Structural o)
    (hd : x.distinct) : n.Divided x.height := by
  induction hs generalizing n with
  | @object ms hoverlapping hformat hbelow ih =>
    obtain ⟨location, hrun⟩ := h.schema
    have hgoverned := Compiler.governed_object (fun _ => rfl) (.object hoverlapping hformat hbelow)
      hd hrun
    refine .mk (fun c hc => (hgoverned c hc).parting) (fun c hc d hd seg hcs hds => ?_)
      (fun c hc k seg hk => ?_) (fun c hc k seg z hk hz => ?_)
    · -- both checks are the one that the keyword for this segment compiles to
      have hsame := (hgoverned c hc).governing seg hcs
      rw [(hgoverned d hd).governing seg hds] at hsame
      exact (List.singleton_inj.1 (Except.ok.inj hsame)).symm
    · obtain ⟨place, y, hy, hk⟩ := (hgoverned c hc).sent k seg hk
      have hdivided := ih y hy ⟨place, Build.steady_eq_ok.1 hk⟩ (hy.position.distinct hd)
      exact hdivided.mono (Nat.le_of_lt_succ hy.position.height_lt)
    · obtain ⟨place, y, hy, hk⟩ := (hgoverned c hc).sent k seg hk
      have hsettled : Plan.Settled ⟨o, .of root o⟩ T y k := ⟨place, Build.steady_eq_ok.1 hk⟩
      rw [hsettled.default_eq] at hz
      cases y with
      | object ys =>
        refine Json.distinct_of_mem_parts (hy.position.distinct hd) ?_
        exact List.mem_map_of_mem (mem_of_lookup hz)
      | _ => cases hz
  | @other v hv =>
    obtain ⟨location, hrun⟩ := h.schema
    cases v with
    | object ms => exact absurd rfl (hv ms)
    | bool b =>
      cases hrun
      have hnone : ∀ c ∈ (Node.trivial location).checks, False := List.forall_mem_nil _
      exact .mk (fun c hc => (hnone c hc).elim) (fun c hc => (hnone c hc).elim)
        (fun c hc => (hnone c hc).elim) fun c hc => (hnone c hc).elim
    | _ => cases hrun

end

/-! ## Validators -/

theorem Options.root_divided {o : Options} {schema : Json} {w : Validator}
    (hbuild : o.build schema = .ok w) (hs : schema.Structural o) (hd : schema.distinct) :
    w.root.Divided schema.height :=
  (compile_complete (build_eq_ok.1 hbuild).1).root.divided hs hd

namespace Validator

variable {o : Options} {schema : Json} {w : Validator}

theorem height_schema_le_depth (w : Validator) (v : Json) : w.schema.height ≤ w.depth v := by
  have hsize : w.schema.height ≤ w.size := by
    have hheight := w.schema.height_le_size
    rw [size, Targets.documents, List.cons_append, Json.sizeItems]
    omega
  have hmul : v.size + w.size ≤ w.depth v := Nat.le_mul_of_pos_right _ (Nat.succ_pos _)
  omega

/-- **Second runs of structural schemas change nothing.** A mutating run has a result on any value,
and a second run on the value that it leaves finds what checking that value finds. -/
theorem validateMut_twice (hbuild : o.build schema = .ok w) (hs : schema.Structural o)
    (hschema : schema.distinct) {v : Json} (hd : v.distinct) :
    ∃ r v', w.validateMut v = some (r, v') ∧ w.validateMut v' = some (w.validate v', v') := by
  have hdivided := Options.root_divided hbuild hs hschema
  obtain ⟨-, rfl, -⟩ := Options.build_eq_ok.1 hbuild
  obtain ⟨v', t, hrun⟩ := hdivided.terminates (s := w.scope) (m := w.changes) (p := {})
    (w.height_schema_le_depth v) v (Tally.start w.recording)
  have hrests := hdivided.rests_after (w.height_schema_le_depth v) (w.height_schema_le_depth v') hd
    _ _ _ hrun
  refine ⟨verdict t, v', ?_, ?_⟩
  · rw [validateMut, validateMutWithin, hrun]
    rfl
  · rw [validateMut, validateMutWithin, hrests.2]
    rfl

/-- An object that is closed, with a default that is closed and filled in further. -/
def refilled : Json := .object
  [("properties", .object [("a", .object
      [("default", .object [("x", .number (.integer 1)), ("y", .number (.integer 2))]),
        ("properties", .object [("x", .object []),
          ("z", .object [("default", .number (.integer 3))])]),
        ("additionalProperties", .bool false)])]),
    ("additionalProperties", .bool false)]

/-- What it makes of an object without the member. -/
def refilledValue : Json := .object
  [("a", .object [("x", .number (.integer 1)), ("z", .number (.integer 3))])]

theorem validateMut_twice_refilled :
    ∃ w, Options.build { filter := true } refilled = .ok w ∧
      w.validateMut (.object [("b", .null)]) = some (.ok (), refilledValue) ∧
        w.validateMut refilledValue = some (w.validate refilledValue, refilledValue) := by
  have hrun : ((Options.build { filter := true } refilled).toOption.map fun w =>
      w.validateMut (.object [("b", .null)])) = some (some (.ok (), refilledValue)) := by
    decide +kernel
  obtain ⟨w, hbuild, hw⟩ := Options.build_of_run hrun
  have hstructural : refilled.Structural { filter := true } :=
    .of_mentions (fun _ _ h => by cases h) (by decide)
  obtain ⟨r, v', hfirst, hsecond⟩ := validateMut_twice hbuild hstructural (by decide)
    (v := .object [("b", .null)]) (by decide)
  cases hw.symm.trans hfirst
  exact ⟨w, hbuild, hw, hsecond⟩

end Validator

end JsonSchema
