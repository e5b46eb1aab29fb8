import JsonSchema.Proofs.Documents
import JsonSchema.Proofs.Settled
import JsonSchema.Proofs.WellFormed
import JsonSchema.Validator

/-!
# The schemas that can be built

A schema document can be built if every schema that is reached from its root is well-formed for
itself. References may form cycles: a target that is being compiled, or that was compiled, is
looked at only once, and its faults are found there.

* `Plan.Complete.settled`: a build comes to every position that is reached;
* `compileNode_succeeds`: compiling succeeds where all reached positions are well-formed;
* `Options.build_iff_wellFormed`: the schemas that can be built.
-/

namespace JsonSchema

open Reads (Succeeds)

/-! ## What a build comes to -/

/-- Readers, the second of which succeeds if the first one does. -/
def Alike.succeeding : Alike Reads Reads where
  results := False
  rel r r' := Succeeds r → Succeeds r'
  pure _ := fun _ => Reads.succeeds_pure _
  bind hx hf := by
    rintro ⟨c, hc⟩
    obtain ⟨a, ha, hc⟩ := Reads.bind_eq_ok hc
    obtain ⟨b, hb⟩ := hx ⟨a, ha⟩
    rw [hb]
    exact hf a b nofun ⟨c, hc⟩

section Settled

variable {plan : Plan} {T : Subroutines} {n : Node}

/-- What a settled schema holds is settled, and the targets that it names have entries. -/
theorem Plan.Settled.testing {x : Json} (h : plan.Settled T x n) :
    ∃ location, Succeeds ((Compiler.testing (fun y => ∃ m, plan.Settled T y m)
      fun k => (T.lookup k).isSome ∨ plan.targets.lookup k = none).schema location plan.options
      x) := by
  obtain ⟨location, h⟩ := h.schema
  have hon : Alike.succeeding.On (plan.settled T) (Compiler.testing
      (fun y => ∃ m, plan.Settled T y m)
      fun k => (T.lookup k).isSome ∨ plan.targets.lookup k = none)
      (fun _ => True) (fun _ => True) := by
    refine ⟨fun y _ place h => ?_, fun k _ place h => ?_, fun r => id⟩
    · obtain ⟨m, hm⟩ := h
      exact Compiler.testing_node.2 ⟨m, place, Build.steady_eq_ok.1 hm⟩
    · obtain ⟨b, hb⟩ := h
      refine Compiler.testing_target.2 ?_
      exact (lookup_of_compileTarget (Build.steady_eq_ok.1 hb)).imp And.left And.left
  exact ⟨location, hon.schema location (fun _ _ _ _ => trivial) (fun _ _ _ _ => trivial) ⟨n, h⟩⟩

theorem Plan.Settled.below {ms : Members} (h : plan.Settled T (.object ms) n) :
    (∀ x, ms.Position plan.options x → ∃ m, plan.Settled T x m) ∧
      ∀ k, ms.Names plan.options k → (T.lookup k).isSome ∨ plan.targets.lookup k = none := by
  obtain ⟨location, h⟩ := h.testing
  exact Compiler.testing_below h

theorem Plan.Settled.wellFormed {x : Json} (h : plan.Settled T x n)
    (ho : plan.options.keywords = []) : x.WellFormed plan.options := by
  obtain ⟨location, h⟩ := h.testing
  exact ((Compiler.testing_schema ho).1 h).1

/-- **A build comes to every position that is reached.** -/
theorem Plan.Complete.settled {root : Json} {o : Options}
    (h : Plan.Complete ⟨o, .of root o⟩ root n T) {x : Json} (hx : Reachable root o x) :
    ∃ m, Plan.Settled ⟨o, .of root o⟩ T x m := by
  induction hx with
  | root => exact ⟨n, h.root⟩
  | position _ hy ih =>
    obtain ⟨m, hm⟩ := ih
    exact hm.below.1 _ hy
  | @target ms k y hms hk hy ih =>
    obtain ⟨m, hm⟩ := ih
    have hlookup : (Targets.of root o).lookup k = some y :=
      (Targets.lookup_of_names hms.held hk).trans hy
    have hentry : (T.lookup k).isSome :=
      (hm.below.2 k hk).resolve_right fun hnone => by simp [hlookup] at hnone
    obtain ⟨m', hm'⟩ := Option.isSome_iff_exists.1 hentry
    obtain ⟨z, hz, hsettled⟩ := h.entry _ (mem_of_lookup hm')
    obtain rfl : y = z := Option.some.inj (hlookup.symm.trans hz)
    exact ⟨m', hsettled⟩

end Settled

/-! ## What makes a build succeed -/

def Alike.building : Alike Reads Build where
  results := False
  rel r m := Succeeds r → ∀ table, ∃ result, m table = .ok result
  pure _ := fun _ table => ⟨_, rfl⟩
  bind hx hf := by
    rintro ⟨c, hc⟩ table
    obtain ⟨a, ha, hc⟩ := Reads.bind_eq_ok hc
    obtain ⟨⟨b, mid⟩, hb⟩ := hx ⟨a, ha⟩ table
    obtain ⟨⟨c', table'⟩, hc'⟩ := hf a b nofun ⟨c, hc⟩ mid
    exact ⟨(c', table'), Build.bind_eq_ok.2 ⟨b, mid, hb, hc'⟩⟩

/-- **Compiling succeeds** at a position that is reached, whatever has been compiled before, if all
of them are well-formed. -/
theorem compileNode_succeeds {root : Json} {o : Options} (ho : o.keywords = [])
    (h : ∀ x, Reachable root o x → x.WellFormed o) (opened : List Target) (x : Json)
    (hx : Reachable root o x) (location : Path) (table : Subroutines) :
    ∃ result, compileNode ⟨o, .of root o⟩ opened location x table = .ok result := by
  revert hx location table
  induction opened, x using Plan.induction ⟨o, .of root o⟩ with
  | step opened x hparts htargets =>
  intro hx location table
  have hon : Alike.building.On
      (Compiler.testing (fun y => Reachable root o y ∧ sizeOf y < sizeOf x)
        fun k => ∃ ms : Members, x = .object ms ∧ ms.Names o k)
      (Plan.compiler ⟨o, .of root o⟩ opened) (fun _ => True) (fun _ => True) := by
    refine ⟨fun y _ place h table => ?_, fun k _ place h table => ?_, ?_⟩
    · obtain ⟨hy, hlt⟩ := Compiler.testing_node.1 h
      exact hparts y hlt hy place table
    · obtain ⟨ms, rfl, hk⟩ := Compiler.testing_target.1 h
      show ∃ result, compileTarget ⟨o, .of root o⟩ opened place k table = .ok result
      rw [compileTarget_run]
      split
      · exact ⟨_, rfl⟩
      · next hopen =>
        split
        · exact ⟨_, rfl⟩
        · exact ⟨_, rfl⟩
        · next y _ hy =>
          have hlookup := Targets.lookup_of_names hx.held hk
          have hreach : Reachable root o y := .target hx hk (hlookup.symm.trans hy)
          obtain ⟨r, hr⟩ := htargets k y hy hopen hreach place table
          exact ⟨_, by rw [hr]; rfl⟩
    · rintro α r ⟨a, rfl⟩ table
      exact ⟨(a, table), rfl⟩
  rw [compileNode_eq]
  refine hon.schema location (fun _ _ _ _ => trivial) (fun _ _ _ _ => trivial) ?_ table
  refine (Compiler.testing_schema ho).2 ⟨h x hx, ?_, ?_⟩
  · rintro ms rfl y hy
    exact ⟨.position hx hy, hy.sizeOf_lt⟩
  · exact fun ms hms k hk => ⟨ms, hms, hk⟩

theorem Options.build_eq_ok {o : Options} {schema : Json} {w : Validator} :
    o.build schema = .ok w ↔
      compile o schema = .ok (w.root, w.subroutines) ∧ w.schema = schema ∧ w.options = o := by
  rw [build]
  constructor
  · intro h
    obtain ⟨⟨n, T⟩, hc, hw⟩ := Reads.bind_eq_ok h
    cases hw
    exact ⟨hc, rfl, rfl⟩
  · rintro ⟨hc, rfl, rfl⟩
    rw [hc]
    rfl

theorem Options.build_of_run {o : Options} {schema : Json} {α : Type} {f : Validator → α} {a : α}
    (h : (o.build schema).toOption.map f = some a) : ∃ w, o.build schema = .ok w ∧ f w = a := by
  cases hbuild : o.build schema with
  | error e =>
    rw [hbuild] at h
    cases h
  | ok w =>
    rw [hbuild] at h
    exact ⟨w, rfl, Option.some.inj h⟩

/-- **The schemas that can be built**, with options that register no keywords, are those all of
whose reached positions are well-formed for themselves. -/
theorem Options.build_iff_wellFormed (o : Options) (ho : o.keywords = []) (schema : Json) :
    (∃ w, o.build schema = .ok w) ↔ ∀ x, Reachable schema o x → x.WellFormed o := by
  constructor
  · rintro ⟨w, hw⟩ x hx
    obtain ⟨m, hm⟩ := (compile_complete (build_eq_ok.1 hw).1).settled hx
    exact hm.wellFormed ho
  · intro h
    obtain ⟨r, hr⟩ := compileNode_succeeds ho h [] schema .root [] []
    exact ⟨⟨r.1, r.2, schema, o⟩, build_eq_ok.2 ⟨hr, rfl, rfl⟩⟩

/-- Two schemas that refer to each other, one of which bounds the length of arrays. -/
def looped (bound : Json) : Json := .object
  [("definitions", .object
      [("a", .object [("properties", .object
        [("next", .object [("$ref", .string "#/definitions/b")])])]),
        ("b", .object [("not", .object [("$ref", .string "#/definitions/a")]),
          ("minItems", bound)])]),
    ("items", .object [("$ref", .string "#/definitions/a")])]

theorem Options.build_iff_wellFormed_looped :
    (∀ x, Reachable (looped (.number (.integer 1))) {} x → x.WellFormed {}) ∧
      ¬∀ x, Reachable (looped (.number (.integer (-1)))) {} x → x.WellFormed {} := by
  have hgood : (build {} (looped (.number (.integer 1)))).isOk = true := by decide +kernel
  have hbad : (build {} (looped (.number (.integer (-1))))).isOk = false := by decide +kernel
  constructor
  · refine (build_iff_wellFormed {} rfl _).1 ?_
    cases h : build {} (looped (.number (.integer 1))) with
    | error e => simp [h, Except.isOk, Except.toBool] at hgood
    | ok w => exact ⟨w, rfl⟩
  · rw [← build_iff_wellFormed {} rfl]
    rintro ⟨w, hw⟩
    simp [hw, Except.isOk, Except.toBool] at hbad

end JsonSchema
