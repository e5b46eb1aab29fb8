import JsonSchema.Proofs.Buildable

/-!
# Schemas of one rule

A schema object with a single keyword that needs no schema builds a validator of a single rule, and
that validator accepts the values in which the rule finds no fault.

* `Node.HasOnly`: a node of one rule that asks nothing else of a value;
* `Options.build_multipleOf`, `Options.build_format`: schemas of one keyword.
-/

namespace JsonSchema

/-- The node checks one rule and says nothing else of a value. -/
structure Node.HasOnly (n : Node) (r : Rule) : Prop where
  heading : n.heading = { location := [] }
  checks : ∃ place, n.checks = [.rule r place]

theorem Node.HasOnly.isValid_iff {w : Validator} {r : Rule} (h : w.root.HasOnly r) (v : Json) :
    w.isValid v = true ↔ r.fault? v = none := by
  obtain ⟨place, hchecks⟩ := h.checks
  show w.root.accepts _ v {} = true ↔ _
  rw [Node.accepts_eq_holds, Node.holds_iff, hchecks, h.heading, List.forall_mem_singleton,
    Check.holds_direct _ _ _ _ rfl]
  have hmissing : Heading.missing { location := [] } v = [] := by cases v <;> rfl
  cases hf : r.fault? v <;> simp [Heading.acceptsType, hmissing, Check.actions, Action.holds, hf]

namespace Options

variable {o : Options}

/-- An object with nothing but `multipleOf`. -/
theorem build_multipleOf (ho : o.keywords.lookup "multipleOf" = none) {n : Number} {d : Divisor}
    (hd : Divisor.ofNumber? n = some d) :
    ∃ w, o.build (.object [("multipleOf", .number n)]) = .ok w ∧
      w.root.HasOnly (.multipleOf d) := by
  refine ⟨⟨.mk { location := [] } [] [.rule (.multipleOf d) [.name "multipleOf"]], [],
    .object [("multipleOf", .number n)], o⟩, ?_, rfl, _, rfl⟩
  have hknown : Keyword.isKnown "multipleOf" = true := Keyword.isKnown_name .multipleOf
  rw [build, compile, compileNode_eq]
  simp [Compiler.schema, Compiler.object, Plan.compiler, checkKeywords, hknown, readHeading,
    readDeclaredType, readRequired, tuple?, List.lookup_cons, Keyword.inOrder, Keyword.name, ho,
    Compiler.parts, customChecks, Compiler.keyword, Keyword.rule?, hd]
  rfl

theorem build_format (ho : o.keywords.lookup "format" = none) {name text : String}
    (hname : o.formats.lookup name = some (.pattern text)) :
    o.build (.object [("format", .string name)]) =
      (readPattern [.name "format"] (wholeText text)).map fun p =>
        ⟨.mk { location := [] } [.rule (.format name p.accepts) [.name "format"]] [], [],
          .object [("format", .string name)], o⟩ := by
  have hknown : Keyword.isKnown "format" = true := by decide
  rw [build, compile, compileNode_eq]
  simp [Compiler.schema, Compiler.object, Plan.compiler, checkKeywords, hknown, readHeading,
    readDeclaredType, readRequired, tuple?, List.lookup_cons, Keyword.inOrder, Keyword.name, ho,
    Compiler.parts, customChecks, Compiler.format, readFormat, hname]
  cases readPattern [.name "format"] (wholeText text) <;> rfl

end Options

end JsonSchema
