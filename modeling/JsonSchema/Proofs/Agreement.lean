import JsonSchema.Proofs.Building
import JsonSchema.Proofs.Deciding
import JsonSchema.Proofs.Parts
import JsonSchema.Validator

/-!
# Compiled schemas mean what their documents say

A schema without references compiles to a node that accepts exactly the values that the document
accepts. The proof goes down the document: the parts of a schema object compile to nodes that mean
the parts, so the checks that hold these nodes decide what the keywords say.

* `Compiles`: whenever a schema compiles, its node means it;
* `compileKeyword_decides`: the checks of a keyword decide its clause;
* `compiles`: schemas without references compile to nodes that mean them;
* `Validator.isValid_iff_accepts_rounded`: a validator accepts what its schema accepts.
-/

namespace JsonSchema

open Build

/-! ## Documents without references -/

namespace Json

theorem referencesItems_eq_nil {xs : List Json} (h : referencesItems xs = []) :
    ∀ x ∈ xs, x.references = [] := by
  induction xs with
  | nil => simp
  | cons x xs ih =>
    rw [referencesItems, List.append_eq_nil_iff] at h
    exact List.forall_mem_cons.2 ⟨h.1, ih h.2⟩

theorem referencesMembers_eq_nil {ms : Members} (h : referencesMembers ms = []) :
    ∀ m ∈ ms, m.2.references = [] ∧ ∀ s, m ≠ ("$ref", .string s) := by
  induction ms with
  | nil => simp
  | cons m ms ih =>
    obtain ⟨name, v⟩ := m
    rw [List.forall_mem_cons]
    cases v with
    | string s =>
      rw [referencesMembers] at h
      split at h
      · cases h
      · next hname => exact ⟨⟨by simp [references], by simp [hname]⟩, ih h⟩
    | _ =>
      rw [referencesMembers, List.append_eq_nil_iff] at h
      · exact ⟨⟨h.1, by simp⟩, ih h.2⟩
      · simp

theorem references_of_mem_parts {x y : Json} (hx : x.references = []) (hy : y ∈ x.parts) :
    y.references = [] := by
  cases x with
  | array xs =>
    rw [references] at hx
    exact referencesItems_eq_nil hx y hy
  | object ms =>
    rw [references] at hx
    obtain ⟨m, hm, rfl⟩ := List.mem_map.1 hy
    exact (referencesMembers_eq_nil hx m hm).1
  | _ => simp [parts] at hy

theorem lookup_reference {ms : Members} (h : (object ms).references = []) (s : String) :
    ms.lookup "$ref" ≠ some (.string s) := by
  intro hs
  rw [references] at h
  exact (referencesMembers_eq_nil h _ (mem_of_lookup hs)).2 s rfl

end Json

/-! ## Lists of schemas -/

/-- No keyword and no schema is registered as a format. -/
structure Options.Plain (o : Options) : Prop where
  keywords : o.keywords = []
  formats (name : String) (s : Json) : o.formats.lookup name ≠ some (.schema s)

/-- Whenever a schema compiles, its node means it. -/
def Compiles (plan : Plan) (schema : Json) : Prop :=
  ∀ opened location, Ensures (compileNode plan opened location schema)
    (Node.Means plan.options schema)

section Lists

variable {plan : Plan} {opened : List Target} {location : Path}

theorem compileItems_means {xs : List Json} (h : ∀ x ∈ xs, Compiles plan x) (i : Nat) :
    Ensures (compileItems plan opened location i xs)
      (List.Forall₂ (Node.Means plan.options) xs) := by
  induction xs generalizing i with
  | nil =>
    rw [compileItems]
    exact ensures_pure .nil
  | cons x xs ih =>
    rw [List.forall_mem_cons] at h
    rw [compileItems]
    refine ensures_bind (h.1 _ _) fun n hn => ?_
    refine ensures_bind (ih h.2 (i + 1)) fun ns hns => ?_
    exact ensures_pure (.cons hn hns)

theorem compileMembers_means {entries : Members} (h : ∀ e ∈ entries, Compiles plan e.2) :
    Ensures (compileMembers plan opened location entries)
      (List.Forall₂ (fun e n => n.1 = e.1 ∧ n.2.Means plan.options e.2) entries) := by
  induction entries with
  | nil =>
    rw [compileMembers]
    exact ensures_pure .nil
  | cons e entries ih =>
    rw [List.forall_mem_cons] at h
    rw [compileMembers]
    refine ensures_bind (h.1 _ _) fun n hn => ?_
    refine ensures_bind (ih h.2) fun ns hns => ?_
    exact ensures_pure (.cons ⟨rfl, hn⟩ hns)

theorem compilePatterns_means {entries : Members} (h : ∀ e ∈ entries, Compiles plan e.2) :
    Ensures (compilePatterns plan opened location entries)
      (List.Forall₂ (fun e n => Pattern.parse? e.1 = some n.1 ∧ n.2.Means plan.options e.2)
        entries) := by
  induction entries with
  | nil =>
    rw [compilePatterns]
    exact ensures_pure .nil
  | cons e entries ih =>
    rw [List.forall_mem_cons] at h
    rw [compilePatterns]
    refine ensures_bind (ensures_lift fun p hp => readPattern_eq hp) fun p hp => ?_
    refine ensures_bind (h.1 _ _) fun n hn => ?_
    refine ensures_bind (ih h.2) fun ns hns => ?_
    exact ensures_pure (.cons ⟨hp, hn⟩ hns)

theorem compileDependencies_means {entries : Members} (h : ∀ e ∈ entries, Compiles plan e.2) :
    Ensures (compileDependencies plan opened location entries)
      (List.Forall₂ (fun e d => d.1 = e.1 ∧ d.2.Means plan.options e.2) entries) := by
  induction entries with
  | nil =>
    rw [compileDependencies]
    exact ensures_pure .nil
  | cons e entries ih =>
    obtain ⟨name, x⟩ := e
    rw [List.forall_mem_cons] at h
    rw [compileDependencies.eq_def]
    dsimp only
    refine ensures_bind (P := fun d => Dependency.Means plan.options x d) ?_ fun d hd => ?_
    · split
      · next other => exact ensures_pure (.name other _)
      · next names =>
        refine ensures_bind (ensures_lift fun ns hns => readNames_eq hns) fun ns hns => ?_
        rw [hns]
        exact ensures_pure (.names ns _)
      · next hs ha =>
        refine ensures_bind (h.1 _ _) fun n hn => ?_
        exact ensures_pure (.schema hs ha hn)
    · refine ensures_bind (ih h.2) fun ds hds => ?_
      exact ensures_pure (.cons ⟨rfl, hd⟩ hds)

end Lists

/-! ## Keywords -/

section Keywords

variable {plan : Plan} {opened : List Target} {location : Path} {ms : Members}

theorem compileKeyword_decides {k : Keyword} {x : Json} (href : k = .reference → ∀ s, x ≠ .string s)
    (hx : Compiles plan x) (hparts : ∀ y ∈ x.parts, Compiles plan y) :
    Ensures (compileKeyword plan opened location ms k x) fun cs =>
      Decides ms cs (k.Clause .rounded plan.options ms x) := by
  rw [compileKeyword.eq_def]
  dsimp only
  -- the values of a wrong shape go first: they compile to nothing
  split <;> try exact ensures_throw _
  · next entries =>
    have hentries : ∀ e ∈ entries, Compiles plan e.2 := List.forall_mem_map.1 hparts
    refine ensures_bind (compileDependencies_means hentries) fun ds hds => ensures_pure ?_
    exact (decides_dependencies hds).congr fun v => by simp [Keyword.Clause]
  · exact ensures_pure (decides_nil fun v _ => by simp [Keyword.Clause, accepts_bool])
  · refine ensures_bind (ensures_lift fun d hd => hd) fun d hd => ensures_pure ?_
    refine (decides_closed (Declared.read_means hd)).congr fun v => ?_
    simp [Keyword.Clause]
  · next ps =>
    refine ensures_bind (ensures_lift fun d hd => hd) fun d hd => ?_
    refine ensures_bind (hx _ _) fun n hn => ensures_pure ?_
    refine (decides_additional hn (Declared.read_means hd)).congr fun v => ?_
    simp [Keyword.Clause]
  · next text => exact absurd rfl (href rfl text)
  · refine ensures_bind (hx _ _) fun n hn => ensures_pure ?_
    exact (decides_negation hn).congr fun v => by simp [Keyword.Clause]
  · exact ensures_pure (decides_nil fun v _ => by simp [Keyword.Clause])
  · next hx' =>
    refine ensures_bind (hx _ _) fun n hn => ensures_pure ?_
    refine (decides_items hn).congr fun v => ?_
    simp [Keyword.Clause, show ∀ ss, x ≠ .array ss from hx']
  · exact ensures_pure (decides_nil fun v _ => by simp [Keyword.Clause])
  · next entries _ =>
    have hentries : ∀ e ∈ entries, Compiles plan e.2 := List.forall_mem_map.1 hparts
    refine ensures_bind (compilePatterns_means hentries) fun ns hns => ensures_pure ?_
    exact (decides_patternProperties hns).congr fun v => by simp [Keyword.Clause]
  · next xs =>
    have hxs : ∀ y ∈ xs, Compiles plan y := hparts
    refine ensures_bind (compileItems_means hxs 0) fun ns hns => ensures_pure ?_
    exact (decides_allOf hns).congr fun v => by simp [Keyword.Clause]
  · exact ensures_pure (decides_nil fun v _ => by simp [Keyword.Clause])
  · next xs hne =>
    have hxs : ∀ y ∈ xs, Compiles plan y := hparts
    refine ensures_bind (compileItems_means hxs 0) fun ns hns => ensures_pure ?_
    exact (decides_anyOf hns).congr fun v => by simp [Keyword.Clause, show xs ≠ [] from hne]
  · exact ensures_pure (decides_nil fun v _ => by simp [Keyword.Clause])
  · next xs hne =>
    have hxs : ∀ y ∈ xs, Compiles plan y := hparts
    refine ensures_bind (compileItems_means hxs 0) fun ns hns => ensures_pure ?_
    exact (decides_oneOf hns).congr fun v => by simp [Keyword.Clause, show xs ≠ [] from hne]
  · have hclause : k.Clause .rounded plan.options ms x = k.Admits .rounded ms x := by
      cases k <;> first | rfl | contradiction
    refine ensures_bind (ensures_lift fun r hr => hr) fun r hr => ensures_pure ?_
    rw [hclause]
    exact decides_rule (Keyword.rule?_means hr)

theorem compileAdditionalItems_decides {ss : List Json} {x : Json} (ht : tuple? ms = some ss)
    (hl : ms.lookup "additionalItems" = some x) (hx : Compiles plan x) :
    Ensures (compileAdditionalItems plan opened location ss.length x) fun cs =>
      Decides ms cs (AdditionalItemsClause .rounded plan.options ms) := by
  have hclause : ∀ v, AdditionalItemsClause .rounded plan.options ms v ↔ ∀ xs, v = .array xs →
      ∀ y ∈ xs.drop ss.length, x ≠ .bool false ∧ Accepts .rounded plan.options x y := by
    intro v
    simp [AdditionalItemsClause, tuple?_eq_some.1 ht, hl]
  rw [compileAdditionalItems.eq_def]
  dsimp only
  split <;> try exact ensures_throw _
  · refine ensures_pure (decides_rule (r := some (.noItemsPast ss.length)) fun v => ?_)
    rw [hclause]
    cases v with
    | array xs =>
      have hdrop : (∀ y ∈ xs.drop ss.length, False) ↔ xs.length ≤ ss.length := by
        rw [← List.drop_eq_nil_iff, List.eq_nil_iff_forall_not_mem]
      simpa [Rule.fault?, Rule.demand_eq_none] using hdrop.symm
    | _ => simp [Rule.fault?]
  · exact ensures_pure (decides_nil fun v _ => (hclause v).2 (by simp [accepts_bool]))
  · refine ensures_bind (hx _ _) fun n hn => ensures_pure ?_
    exact (decides_additionalItems hn).congr fun v => by simp [hclause]

theorem compileFormat_decides {x : Json} (ho : plan.options.Plain)
    (hl : ms.lookup "format" = some x) :
    Ensures (compileFormat plan opened location x) fun cs =>
      Decides ms cs (MatchesFormat plan.options ms) := by
  rw [compileFormat.eq_def]
  dsimp only
  split <;> try exact ensures_throw _
  · next name =>
    split
    · next s hs => exact absurd hs (ho.formats name s)
    · refine ensures_bind (ensures_lift fun r hr => hr) fun r hr => ensures_pure ?_
      refine decides_rule (r := some r) fun v => ?_
      have hname : MatchesFormat plan.options ms v ↔ ∀ test s,
          plan.options.formatTest? name = some test → v = .string s → test s = true := by
        rw [MatchesFormat]
        constructor
        · exact fun h test s => h name test s hl
        · intro h name' test s hl'
          obtain rfl : name = name' := by simpa [hl] using hl'
          exact h test s
      simp [readFormat_means hr, hname]

theorem skipsNull_iff (ms : Members) : skipsNull ms = true ↔ AllowsNull ms := by
  have hnull : ∀ x : Json, (x.string? == some "null") = true ↔ x = .string "null" := by
    intro x
    cases x <;> simp [Json.string?]
  rw [skipsNull, AllowsNull]
  split
  · next names h => simp [h, hnull]
  · next h => simpa using fun names hn => absurd hn (h names)

theorem compileTuple_decides {ss : List Json} (hl : ms.lookup "items" = some (.array ss))
    (h : ∀ x ∈ ss, Compiles plan x) :
    Ensures (compileItems plan opened location 0 ss) fun ns => Decides ms [.tuple ns] fun v =>
      TupleClause .rounded plan.options ms v ∧ PropertiesClause .rounded plan.options ms v := by
  refine (compileItems_means h 0).mono fun ns hns => ?_
  refine (decides_tuple hns).congr fun v => ?_
  simp [TupleClause, PropertiesClause, hl]

theorem compileProperties_decides {entries : Members}
    (hitems : ∀ ss, ms.lookup "items" ≠ some (.array ss))
    (hl : ms.lookup "properties" = some (.object entries))
    (h : ∀ e ∈ entries, Compiles plan e.2) :
    Ensures (compileMembers plan opened location entries) fun ns =>
      Decides ms [.properties ns (skipsNull ms)] fun v =>
        TupleClause .rounded plan.options ms v ∧ PropertiesClause .rounded plan.options ms v := by
  refine (compileMembers_means h).mono fun ns hns => ?_
  refine (decides_properties hns (skipsNull_iff ms)).congr fun v => ?_
  simp [TupleClause, PropertiesClause, hl, hitems]

end Keywords

/-! ## Schemas -/

theorem trivial_means (o : Options) (b : Bool) (location : Path) :
    (Node.trivial location).Means o (.bool b) := by
  constructor
  · intro below here path v
    simp [Node.holds_iff, accepts_bool, Node.trivial, Node.heading, Node.checks,
      Heading.acceptsType_iff, Heading.missing_eq_nil]
  · simp [Node.trivial, Node.heading, Heading.allowsAbsent, AllowsAbsent]

/-- A node with the checks of all clauses means the schema object. -/
theorem mk_means {o : Options} {ms : Members} {heading : Heading}
    {extra format single parts : List Check} (hheading : heading.Means ms)
    (hextra : Decides ms extra (AdditionalItemsClause .rounded o ms))
    (hformat : Decides ms format (MatchesFormat o ms))
    (hsingle : Decides ms single fun v => ∀ k ∈ Keyword.inOrder, ∀ x,
      ms.lookup (Keyword.name k) = some x → k.Clause .rounded o ms x v)
    (hparts : Decides ms parts fun v =>
      TupleClause .rounded o ms v ∧ PropertiesClause .rounded o ms v) :
    (Node.mk heading (extra ++ format) (single ++ parts)).Means o (.object ms) := by
  constructor
  · intro below here path v
    have hchecks := (hextra.append hformat).append (hsingle.append hparts) below here path v
    rw [Node.holds_iff, accepts_object_iff]
    show heading.acceptsType v = true ∧ heading.missing v = [] ∧ _ ↔ _
    rw [hheading.acceptsType_iff, hheading.missing_iff]
    refine and_congr_right fun ht => and_congr_right fun _ => ?_
    refine (hchecks ht).trans ?_
    simp only [Keyword.mem_inOrder, forall_const]
    tauto
  · exact hheading.allowsAbsent_iff

/-- A schema object compiles to a node that means it, if its parts and their parts do. -/
theorem compiles_object {plan : Plan} (ho : plan.options.Plain) {ms : Members}
    (hrefs : (Json.object ms).references = [])
    (hpart : ∀ x ∈ (Json.object ms).parts, Compiles plan x)
    (hsub : ∀ x ∈ (Json.object ms).parts, ∀ y ∈ x.parts, Compiles plan y) :
    Compiles plan (.object ms) := by
  intro opened location
  have hmem : ∀ {name x}, ms.lookup name = some x → x ∈ (Json.object ms).parts :=
    fun h => List.mem_map_of_mem (mem_of_lookup h)
  rw [compileNode]
  refine ensures_bind (P := fun _ => True) (ensures_lift fun _ _ => trivial) fun _ _ => ?_
  refine ensures_bind (ensures_lift fun h hh => readHeading_means hh) fun heading hheading => ?_
  refine ensures_bind
    (P := fun cs => Decides ms cs (AdditionalItemsClause .rounded plan.options ms))
    ?_ fun extra hextra => ?_
  · split
    · next ss x hx ht _ => exact compileAdditionalItems_decides ht hx (hpart x (hmem hx))
    · next hnone =>
      refine ensures_pure (decides_nil fun v _ ss hs x hx => ?_)
      exact absurd (Option.attach_eq_some _ ⟨x, hx⟩) (hnone ss x hx (tuple?_eq_some.2 hs))
  refine ensures_bind (P := fun cs => Decides ms cs (MatchesFormat plan.options ms))
    ?_ fun format hformat => ?_
  · split
    · next x hx _ => exact compileFormat_decides ho hx
    · next hnone =>
      refine ensures_pure (decides_nil fun v _ name test s hx => ?_)
      rw [Option.attach_eq_none_iff.1 hnone] at hx
      cases hx
  refine ensures_bind (P := List.Forall₂ (fun k cs => Decides ms cs fun v =>
    ∀ x, ms.lookup (Keyword.name k) = some x → k.Clause .rounded plan.options ms x v)
    Keyword.inOrder) ?_ fun single hsingle => ?_
  · refine ensures_mapM _ fun k _ => ?_
    split
    · next x hx _ _ =>
      have href : k = .reference → ∀ s, x ≠ .string s := by
        rintro rfl s rfl
        exact Json.lookup_reference hrefs s hx
      refine (compileKeyword_decides href (hpart x (hmem hx)) (hsub x (hmem hx))).mono ?_
      exact fun cs hcs => hcs.congr fun v => by simp [hx]
    · next hnone =>
      refine ensures_pure (decides_nil fun v _ x hx => ?_)
      refine absurd (Option.attach_eq_some _ ⟨x, hx⟩) (hnone x hx ?_)
      rw [ho.keywords]
      rfl
  refine ensures_bind (P := fun cs => Decides ms cs fun v =>
    TupleClause .rounded plan.options ms v ∧ PropertiesClause .rounded plan.options ms v)
    ?_ fun parts hparts => ?_
  · split
    · next ss hs _ =>
      refine ensures_bind (compileTuple_decides hs (hsub _ (hmem hs))) fun ns hns => ?_
      exact ensures_pure hns
    · next ps hps _ hnone =>
      have hitems : ∀ ss, ms.lookup "items" ≠ some (.array ss) :=
        fun ss hs => hnone ss hs (Option.attach_eq_some _ ⟨_, hs⟩)
      have hentries := List.forall_mem_map.1 (hsub _ (hmem hps))
      refine ensures_bind (compileProperties_decides hitems hps hentries) fun ns hns => ?_
      exact ensures_pure hns
    · exact ensures_throw _
    · next hprops hnone =>
      have hitems : ∀ ss, ms.lookup "items" ≠ some (.array ss) :=
        fun ss hs => hnone ss hs (Option.attach_eq_some _ ⟨_, hs⟩)
      have hnoprops := Option.attach_eq_none_iff.1 hprops
      refine ensures_pure (decides_nil fun v _ => ?_)
      simp [TupleClause, PropertiesClause, hitems, hnoprops]
  refine ensures_bind (P := fun cs => cs = []) ?_ fun custom hcustom => ?_
  · rw [customChecks_eq_nil ho.keywords]
    exact ensures_lift fun cs hcs => (Except.ok.inj hcs).symm
  rw [hcustom, List.append_nil]
  exact ensures_pure (mk_means hheading hextra hformat (decides_flatten hsingle) hparts)

/-- **A schema without references compiles to a node that means it.** -/
theorem compiles {plan : Plan} (ho : plan.options.Plain) (schema : Json)
    (hrefs : schema.references = []) : Compiles plan schema := by
  induction schema using (measure (sizeOf (α := Json))).wf.induction with
  | h schema ih =>
    intro opened location
    cases schema with
    | bool b =>
      rw [compileNode]
      exact ensures_pure (trivial_means _ b location)
    | object ms =>
      have hpart : ∀ x ∈ (Json.object ms).parts, Compiles plan x := fun x hx =>
        ih x (Json.sizeOf_lt_of_mem_parts hx) (Json.references_of_mem_parts hrefs hx)
      have hsub : ∀ x ∈ (Json.object ms).parts, ∀ y ∈ x.parts, Compiles plan y := by
        intro x hx y hy
        refine ih y ?_ (Json.references_of_mem_parts (Json.references_of_mem_parts hrefs hx) hy)
        exact (Json.sizeOf_lt_of_mem_parts hy).trans (Json.sizeOf_lt_of_mem_parts hx)
      exact compiles_object ho hrefs hpart hsub opened location
    | _ =>
      rw [compileNode]
      · exact ensures_throw _
      all_goals simp

/-! ## Validators -/

namespace Validator

/-- **A validator accepts what its schema means**, where whole divisors are rounded to divide
doubles. References, custom keywords and schemas as formats are left out; the greedy setting makes
no difference. -/
theorem isValid_iff_accepts_rounded {o : Options} {schema : Json} {w : Validator}
    (hbuild : o.build schema = .ok w) (ho : o.Plain) (hrefs : schema.references = []) (v : Json) :
    w.isValid v = true ↔ Accepts .rounded o schema v := by
  obtain ⟨⟨root, table⟩, hroot, hw⟩ := Reads.bind_eq_ok hbuild
  cases hw
  have hcompiles : Compiles ⟨o, .of schema o⟩ schema := compiles ho schema hrefs
  have hmeans : root.Means o schema := hcompiles [] [] [] root table hroot
  show root.accepts _ v {} = true ↔ _
  rw [Node.accepts_eq_holds]
  exact hmeans.holds_iff _ _ _ v

end Validator

end JsonSchema
