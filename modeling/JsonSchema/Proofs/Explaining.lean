import JsonSchema.Proofs.Placing

/-!
# What violations and errors say of the schema

All schemas and targets of a document are compiled at places that lead to them. So a verbose
validator names, for each violation, a keyword of its kind that is there in the schema, with the
type declared next to it, and a schema that cannot be built has the fault that its error names, at
the place that the error names.

* `compileNode_goes`: a schema is compiled at a place that leads to it;
* `Validator.violations_blame`: the keywords that violations name are there;
* `Options.build_error_points`: the faults that errors name are there.
-/

namespace JsonSchema

open Build (Meets meets_pure meets_lift)

section Compiling

variable {root : Json} {o : Options}

/-- A target is compiled once, at the place that first names it. -/
theorem compileTarget_goes {opened : List Target} {place : Path} {k : Target}
    (hnode : ∀ x, (Targets.of root o).lookup k = some x → k ∉ opened →
      Meets (Build.placing root o) (compileNode ⟨o, .of root o⟩ (k :: opened) place x)
        (Node.Placed root o)) :
    Meets (Build.placing root o) (compileTarget ⟨o, .of root o⟩ opened place k) fun _ => True := by
  intro table htable
  rw [compileTarget_run]
  split
  · exact ⟨trivial, htable⟩
  · next hk =>
    split
    · exact ⟨trivial, htable⟩
    · exact ⟨trivial, htable⟩
    · next x _ hx =>
      have hrun := hnode x hx hk table htable
      cases h : compileNode ⟨o, .of root o⟩ (k :: opened) place x table with
      | error e =>
        rw [h] at hrun
        exact hrun
      | ok r =>
        rw [h] at hrun
        exact ⟨trivial, List.forall_mem_cons.2 hrun⟩

/-- **A schema is compiled at a place that leads to it.** -/
theorem compileNode_goes (hd : ∀ d ∈ Targets.documents root o, d.distinct) (opened : List Target)
    (x : Json) {place : Path} (hplace : place.LeadsTo root o x) :
    Meets (Build.placing root o) (compileNode ⟨o, .of root o⟩ opened place x)
      (Node.Placed root o) := by
  refine Plan.induction ⟨o, .of root o⟩ (P := fun opened x => ∀ place : Path,
    place.LeadsTo root o x → Meets (Build.placing root o)
      (compileNode ⟨o, .of root o⟩ opened place x) (Node.Placed root o)) ?_ opened x place hplace
  intro opened x below targets place hplace
  rw [compileNode_eq]
  cases x with
  | object ms =>
    have hgoes : Compiler.Goes root o ms (Plan.compiler ⟨o, .of root o⟩ opened) := by
      refine ⟨fun hy hplace => below _ hy.sizeOf_lt _ hplace, fun {_ k} hk hnamed => ?_,
        fun _ => rfl⟩
      refine compileTarget_goes fun y hy hopen => targets k y hy hopen _ (hnamed y ?_)
      rwa [← Targets.lookup_of_names hplace.held hk]
    exact hgoes.object hplace (hplace.held.distinct hd)
  | bool b => exact meets_pure Node.placed_trivial
  | _ =>
    refine meets_lift (by simp) ?_
    rintro _ ⟨⟩
    exact .inl ⟨place, [], _, (List.append_nil place).symm, hplace, .notSchema rfl⟩

theorem compile_goes (hd : ∀ d ∈ Targets.documents root o, d.distinct) :
    (Build.placing root o).Allows (Node.Placed root o) (compile o root) :=
  compileNode_goes hd [] root .start [] (List.forall_mem_nil _)

end Compiling

/-! ## Violations -/

namespace Validator

variable {o : Options} {schema : Json} {w : Validator}

theorem placed_of_has (hd : ∀ d ∈ Targets.documents schema o, d.distinct)
    (hbuild : o.build schema = .ok w) {n : Node} (hn : w.Has n) : n.Placed schema o := by
  have hrun := compile_goes hd
  rw [(Options.build_eq_ok.1 hbuild).1] at hrun
  obtain ⟨hroot, htable⟩ := hrun
  rcases hn with hn | ⟨t, k, hk, hn⟩
  · exact fun m hm => hroot m (hm.trans hn)
  · exact fun m hm => htable _ (mem_of_lookup hk) m (hm.trans hn)

/-- **Violations name keywords that are there.** The schema path of each violation of a verbose
validator, read from the root of the schema, leads to a schema object, through what references and
formats denote, and in it to a member that the kind of the violation blames. The declared type is
the one written in this object, or that of arrays if the object has a tuple. -/
theorem violations_blame (hd : ∀ d ∈ Targets.documents schema o, d.distinct)
    (hverbose : o.verbose = true) (hbuild : o.build schema = .ok w) {v : Json}
    {vs : List Violation} (h : w.validate v = .error vs) :
    ∀ x ∈ vs, ∃ d, x.details = some d ∧
      d.schemaPath.Explains schema o x.kind d.declaredType := by
  intro x hx
  obtain ⟨y, hy, rfl⟩ := exists_report h hx
  have hoptions : w.options = o := (Options.build_eq_ok.1 hbuild).2.2
  rw [hoptions, hverbose, if_pos rfl]
  obtain ⟨q, n, u, hcomes, hfinds⟩ := Node.exists_finds hy
  exact hfinds.explained (placed_of_has hd hbuild (has_of_comes hcomes))

/-- A format is first compiled where a reference leads, under `not`, and used at another place. -/
def shared : Json := .object
  [("definitions", .object [("d", .object [("format", .string "short")])]),
    ("not", .object [("$ref", .string "#/definitions/d")]),
    ("properties", .object [("a", .object [("format", .string "short")])])]

def sharing : Options where
  verbose := true
  formats := [("short", .schema (.object
    [("type", .array [.string "string", .string "object"]), ("maxLength", .number (.integer 2))]))]

theorem violations_blame_shared :
    ∃ w vs, sharing.build shared = .ok w ∧
      w.validate (.object [("a", .string "long")]) = .error vs ∧
        vs.map (fun x => x.details.map fun d => d.schemaPath.pointer) =
          [some "/not", some "/not/$ref/format/maxLength"] ∧
          ∀ x ∈ vs, ∃ d, x.details = some d ∧
            d.schemaPath.Explains shared sharing x.kind d.declaredType := by
  have hrun : ((sharing.build shared).toOption.map fun w =>
      (listed (w.validate (.object [("a", .string "long")]))).map fun x =>
        x.details.map fun d => d.schemaPath.pointer) =
      some [some "/not", some "/not/$ref/format/maxLength"] := by decide +kernel
  obtain ⟨w, hbuild, hw⟩ := Options.build_of_run hrun
  have hd : ∀ d ∈ Targets.documents shared sharing, d.distinct := by decide
  cases hv : w.validate (.object [("a", .string "long")]) with
  | ok => simp [hv, listed] at hw
  | error vs =>
    exact ⟨w, vs, hbuild, hv, by simpa [hv, listed] using hw, violations_blame hd rfl hbuild hv⟩

end Validator

/-! ## Errors -/

theorem Options.compile_of_build {o : Options} {schema : Json} {e : SchemaError}
    (h : o.build schema = .error e) : compile o schema = .error e := by
  rcases Reads.bind_eq_error h with h | ⟨r, -, h⟩
  · exact h
  · cases h

/-- **Errors name faults that are there.** Without registered keywords, a part of the location of an
error, read from the root of the schema, leads to a schema, through what references and formats
denote, and the rest is the place of a fault in this schema, of the cause that the error names. -/
theorem Options.build_error_points {o : Options} (ho : o.keywords = []) {schema : Json}
    (hd : ∀ d ∈ Targets.documents schema o, d.distinct) {e : SchemaError}
    (h : o.build schema = .error e) : e.Points schema o := by
  have hrun := compile_goes hd
  rw [compile_of_build h] at hrun
  rcases hrun with hpoints | ⟨keyword, rule, ms, v, place, hrule, -⟩
  · exact hpoints
  · rw [ho] at hrule
    cases hrule

def formatted : Json := .object
  [("definitions", .object [("d", .object [("format", .string "short")])]),
    ("properties", .object [("a/b", .object [("$ref", .string "#/definitions/d")])])]

namespace Options

/-- Options with a format the schema of which has a fault. -/
def negative : Options where
  formats := [("short", .schema (.object [("maxLength", .number (.integer (-1)))]))]

theorem build_error_points_negative :
    ∃ e, negative.build formatted = .error e ∧
      e.message = "\"maxLength\" must be a non-negative integer " ++
        "(at /properties/a~1b/$ref/format/maxLength)" ∧
      e.Points formatted negative := by
  have hrun : (match negative.build formatted with
      | .ok _ => none
      | .error e => some e.message) = some ("\"maxLength\" must be a non-negative integer " ++
        "(at /properties/a~1b/$ref/format/maxLength)") := by decide +kernel
  cases h : negative.build formatted with
  | ok w => simp [h] at hrun
  | error e => exact ⟨e, rfl, by simpa [h] using hrun, build_error_points rfl (by decide) h⟩

end Options

end JsonSchema
