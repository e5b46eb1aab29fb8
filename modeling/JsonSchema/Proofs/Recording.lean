import JsonSchema.Proofs.OneGuardChange
import JsonSchema.Proofs.Origins
import JsonSchema.Proofs.Progress

/-!
# Runs that count and runs that record

A run that only counts, a run that records and one that records details as well report the same
violations. Probes drop what they have counted and what they have recorded, so the number and the
list never part. Compiling reads what the options register, and not how runs record.

* `compile_congr`: options that register the same compile to the same;
* `Node.apply_reports`: a mutating run that ends adds its reports to every tally;
* `Validator.verdict_brief`: the results of two tallies with the same reports;
* `Validator.recordings_agree`: the runs of a validator that was built agree.
-/

namespace JsonSchema

/-! ## Compiling -/

/-- Options that register the same formats, documents and keywords. -/
structure Options.Registers (o o' : Options) : Prop where
  formats : o'.formats = o.formats
  documents : o'.documents = o.documents
  keywords : o'.keywords = o.keywords

section

variable {o o' : Options} (h : o.Registers o') (location : Path) (ms : Members)
include h

theorem checkKeywords_congr : checkKeywords o' location ms = checkKeywords o location ms := by
  induction ms with
  | nil => rfl
  | cons m ms ih => rw [checkKeywords, checkKeywords, h.keywords, ih]

theorem customChecks_congr (rest : Members) :
    customChecks o' location ms rest = customChecks o location ms rest := by
  induction rest with
  | nil => rfl
  | cons m rest ih => rw [customChecks, customChecks, h.keywords, ih]

theorem Compiler.object_congr {m : Type → Type} [Monad m] (c : Compiler m) :
    c.object location o' ms = c.object location o ms := by
  have hformat : ∀ v, c.format location o' v = c.format location o v := by
    intro v
    cases v <;> simp only [Compiler.format, readFormat, h.formats]
  simp only [Compiler.object, checkKeywords_congr h, customChecks_congr h, h.keywords, hformat]

theorem compileNode_congr (targets : Targets) (opened : List Target) (x : Json) :
    ∀ location, compileNode ⟨o', targets⟩ opened location x =
      compileNode ⟨o, targets⟩ opened location x := by
  refine Plan.induction ⟨o, targets⟩ (P := fun opened x => ∀ location,
    compileNode ⟨o', targets⟩ opened location x = compileNode ⟨o, targets⟩ opened location x)
    (fun opened x hpart htarget location => ?_) opened x
  rw [compileNode_eq, compileNode_eq]
  cases x with
  | object ms =>
    have hon : (Alike.identical Build).On (Plan.compiler ⟨o', targets⟩ opened)
        (Plan.compiler ⟨o, targets⟩ opened) (fun y => sizeOf y < sizeOf (Json.object ms))
        (fun _ => True) := by
      refine ⟨hpart, fun k _ place => funext fun table => ?_, fun r => rfl⟩
      show compileTarget ⟨o', targets⟩ opened place k table =
        compileTarget ⟨o, targets⟩ opened place k table
      rw [compileTarget_run, compileTarget_run]
      split
      · rfl
      · next hk =>
        cases table.lookup k with
        | some n => rfl
        | none =>
          cases hx : targets.lookup k with
          | none => rfl
          | some x => simp only [htarget k x hx hk place]
    show Compiler.object _ location o' ms = Compiler.object _ location o ms
    rw [Compiler.object_congr h]
    exact hon.object location (fun y hy => hy.sizeOf_lt) fun _ _ => trivial
  | _ => rfl

theorem Targets.of_congr (root : Json) : of root o' = of root o := by
  have hformats : formatSchemas o' = formatSchemas o := congrArg (List.filterMap _) h.formats
  have hreference : ofReference? root o' = ofReference? root o := by
    funext text
    rw [ofReference?, ofReference?, h.documents]
  rw [of, of, documents, documents, hformats, hreference, h.documents]

/-- **Compiling reads the registrations only.** -/
theorem compile_congr (schema : Json) : compile o' schema = compile o schema := by
  rw [compile, compile, Targets.of_congr h, compileNode_congr h]

end

/-! ## Runs -/

/-- **A mutating run adds its reports to the tally**, and what it leaves does not depend on the
tally: either it ends from every tally or from none. -/
theorem Node.apply_reports (s : Scope) (m : Changes) (n : Node) (depth : Nat) (v : Json) :
    (∀ t, n.apply s m depth v {} t = none) ∨
      ∃ w vs, ∀ t : Tally, n.apply s m depth v {} t = some (w, t.reportAll vs) := by
  by_cases hends : ∃ t x, n.apply s m depth v {} t = some x
  · obtain ⟨t, ⟨w, t'⟩, hrun⟩ := hends
    obtain ⟨vs, -, hvs, -⟩ :=
      n.realized s m depth {} [] Site.Guards.start Scope.Sound.start v t w t' hrun
    exact .inr ⟨w, vs, hvs⟩
  · exact .inl fun t => Option.eq_none_iff_forall_ne_some.2 fun x hx => hends ⟨t, x, hx⟩

namespace Validator

/-- A result without the details of its violations. -/
def withoutDetails (r : Except (List Violation) Unit) : Except (List Violation) Unit :=
  r.mapError (List.map Violation.brief)

theorem verdict_reportAll (recording : Recording) (vs : List Violation) :
    verdict ((Tally.start recording).reportAll vs) =
      if vs = [] then .ok () else .error (vs.flatMap (Tally.keep recording)) := by
  have hcount : ((Tally.start recording).reportAll vs).count = 0 ↔ vs = [] := by
    rw [Tally.count_reportAll]
    simp [Tally.start]
  simp only [verdict, hcount, Tally.records_reportAll]
  rfl

/-- A tally that records without details has the result of one that records them. -/
theorem verdict_brief (vs : List Violation) :
    verdict ((Tally.start .brief).reportAll vs) =
      withoutDetails (verdict ((Tally.start .verbose).reportAll vs)) := by
  have hbrief : vs.flatMap (Tally.keep .brief) = vs.map Violation.brief := List.map_eq_flatMap.symm
  have hverbose : vs.flatMap (Tally.keep .verbose) = vs := List.flatMap_singleton' vs
  rw [verdict_reportAll, verdict_reportAll, hbrief, hverbose]
  split <;> rfl

theorem recording_ne_off (w : Validator) : w.recording ≠ .off := by
  rw [recording]
  split <;> nofun

/-! ## Validators -/

theorem validate_eq (w : Validator) (v : Json) :
    w.validate v = verdict ((Tally.start w.recording).reportAll (w.root.reports w.scope v {})) := by
  rw [validate, Node.check_eq]

theorem isValid_eq (w : Validator) (v : Json) :
    w.isValid v = (w.root.reports w.scope v {}).isEmpty :=
  Emits.passes fun t => w.root.check_eq w.scope v {} t

theorem isValid_iff_validate (w : Validator) (v : Json) :
    w.isValid v = true ↔ w.validate v = .ok () := by
  rw [isValid_eq, validate_eq, verdict_reportAll, List.isEmpty_iff]
  split <;> simp [*]

/-- A result that is no success lists as many violations as there are reports. -/
theorem length_of_validate {w : Validator} {v : Json} {vs : List Violation}
    (h : w.validate v = .error vs) :
    vs ≠ [] ∧ vs.length = (w.root.reports w.scope v {}).length := by
  have hlength := Tally.length_keep w.recording (w.root.reports w.scope v {})
  rw [if_pos w.recording_ne_off] at hlength
  rw [validate_eq, verdict_reportAll] at h
  split at h
  · cases h
  · next hne =>
    cases h
    exact ⟨fun hnil => hne (List.length_eq_zero_iff.1 (hlength.symm.trans (by rw [hnil]; rfl))),
      hlength⟩

/-- The validator that records with or without details. -/
def withVerbose (w : Validator) (b : Bool) : Validator :=
  { w with options := { w.options with verbose := b } }

theorem validate_withVerbose (w : Validator) (v : Json) :
    (w.withVerbose false).validate v = withoutDetails ((w.withVerbose true).validate v) := by
  rw [validate_eq, validate_eq]
  exact verdict_brief _

theorem validateMutWithin_withVerbose (w : Validator) (depth : Nat) (v : Json) :
    (w.withVerbose false).validateMutWithin depth v =
      ((w.withVerbose true).validateMutWithin depth v).map fun x => (withoutDetails x.1, x.2) := by
  rw [validateMutWithin, validateMutWithin]
  rcases w.root.apply_reports w.scope w.changes depth v with hnone | ⟨v', vs, hrun⟩
  · have hrun : ∀ b t, (w.withVerbose b).root.apply (w.withVerbose b).scope
        (w.withVerbose b).changes depth v {} t = none := fun b t => hnone t
    rw [hrun, hrun]
    rfl
  · have hrun : ∀ b t, (w.withVerbose b).root.apply (w.withVerbose b).scope
        (w.withVerbose b).changes depth v {} t = some (v', t.reportAll vs) := fun b t => hrun t
    rw [hrun, hrun]
    exact congrArg (fun r => some (r, v')) (verdict_brief vs)

theorem build_withVerbose {o : Options} {schema : Json} {w : Validator}
    (h : o.build schema = .ok w) (b : Bool) :
    Options.build { o with verbose := b } schema = .ok (w.withVerbose b) := by
  obtain ⟨hcompile, rfl, rfl⟩ := Options.build_eq_ok.1 h
  have hregisters : w.options.Registers { w.options with verbose := b } := ⟨rfl, rfl, rfl⟩
  exact Options.build_eq_ok.2 ⟨(compile_congr hregisters w.schema).trans hcompile, rfl, rfl⟩

/-- **The runs of a validator agree.** A run that only counts passes exactly if the run that
records does, and otherwise the violations that are listed, which are some, are as many as were
counted, by runs whose probes count and record on the one tally and rewind it. Recording details
adds to the violations and changes nothing else: the same ones are listed in the same order, and
mutating runs end on the same values with the same changes. -/
theorem recordings_agree {o : Options} {schema : Json} {w : Validator}
    (hbuild : o.build schema = .ok w) :
    (∀ v, (w.isValid v = true ↔ w.validate v = .ok ()) ∧
      ∃ counted recorded, w.guardedRun .off v = some counted ∧
        w.guardedRun w.recording v = some recorded ∧ w.validate v = verdict recorded.tally ∧
          (w.isValid v = true ↔ counted.tally.count = 0) ∧
            ∀ vs, w.validate v = .error vs → vs ≠ [] ∧ vs.length = counted.tally.count) ∧
      ∃ long short, Options.build { o with verbose := true } schema = .ok long ∧
        Options.build { o with verbose := false } schema = .ok short ∧
          ∀ v, short.validate v = withoutDetails (long.validate v) ∧
            (∀ depth, short.validateMutWithin depth v =
              (long.validateMutWithin depth v).map fun x => (withoutDetails x.1, x.2)) ∧
              short.validateMut v =
                (long.validateMut v).map fun x => (withoutDetails x.1, x.2) := by
  refine ⟨fun v => ⟨w.isValid_iff_validate v, ?_⟩, w.withVerbose true, w.withVerbose false,
    build_withVerbose hbuild true, build_withVerbose hbuild false,
    fun v => ⟨w.validate_withVerbose v, fun depth => w.validateMutWithin_withVerbose depth v,
      w.validateMutWithin_withVerbose _ v⟩⟩
  obtain ⟨counted, hcounted, hcount, -⟩ := w.guardedRun_eq .off v
  obtain ⟨recorded, hrecorded, htally, -⟩ := w.guardedRun_eq w.recording v
  have hreports : counted.tally.count = (w.root.reports w.scope v {}).length := by
    rw [hcount, Node.check_eq, Tally.count_reportAll]
    exact Nat.zero_add _
  refine ⟨counted, recorded, hcounted, hrecorded, ?_, ?_, fun vs hvs => ?_⟩
  · rw [htally, validate]
  · rw [hreports, isValid_eq, List.isEmpty_iff, List.length_eq_zero_iff]
  · rw [hreports]
    exact length_of_validate hvs

/-- Numbers that fail three checks, of which two try schemas on the side. -/
def probed : Json := .object
  [("anyOf", .array [.object [("type", .string "string")],
      .object [("not", .object [("minimum", .number (.integer 1))])]]),
    ("oneOf", .array [.object [("type", .string "number")],
      .object [("minimum", .number (.integer 0))]]),
    ("maximum", .number (.integer 2))]

theorem recordings_agree_probed :
    ∃ w long vs counted, Options.build {} probed = .ok w ∧
      Options.build { verbose := true } probed = .ok long ∧
        w.validate (.number (.integer 3)) = .error vs ∧
          w.guardedRun .off (.number (.integer 3)) = some counted ∧
            vs ≠ [] ∧ vs.length = counted.tally.count ∧ counted.tally.count = 3 ∧
              w.validate (.number (.integer 3)) =
                withoutDetails (long.validate (.number (.integer 3))) := by
  have hrun : ((Options.build {} probed).toOption.map fun w =>
      (w.validate (.number (.integer 3))).mapError List.length) = some (.error 3) := by
    decide +kernel
  obtain ⟨w, hbuild, hw⟩ := Options.build_of_run hrun
  obtain ⟨hvalidate, long, short, hlong, hshort, hagree⟩ := recordings_agree hbuild
  cases hbuild.symm.trans hshort
  cases hv : w.validate (.number (.integer 3)) with
  | ok => simp [hv, Except.mapError] at hw
  | error vs =>
    have hlength : vs.length = 3 := by simpa [hv, Except.mapError] using hw
    obtain ⟨-, counted, recorded, hcounted, -, -, -, hlisted⟩ :=
      hvalidate (.number (.integer 3))
    obtain ⟨hne, hcount⟩ := hlisted vs hv
    exact ⟨w, long, vs, counted, hbuild, hlong, hv, hcounted, hne, hcount,
      hcount.symm.trans hlength, (hagree _).1⟩

end Validator

end JsonSchema
