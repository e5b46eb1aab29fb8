import JsonSchema.Proofs.Origins
import JsonSchema.Proofs.Rearranging

/-!
# The order of members in schemas

Two documents that differ in the order of members only can both be built or neither can, and their
validators accept the same values. The order decides which reference is compiled first and in which
order the checks stand, but the schemas that are reached correspond, and the nodes of corresponding
schemas look for the same things.

A reference denotes the first object that has it as its identifier, so this asks for references that
are the identifier of one object at most.

* `Members.Position.reordered`, `Members.Names.reordered`: what is right below schema objects;
* `Json.NamedOnce`: no reference that is reached is the identifier of two objects;
* `Reordering.reachable_left`, `Reordering.reachable_right`: the schemas that are reached;
* `Reordering.simulates`: the runs of both validators go side by side;
* `Options.build_reordered`: reordered documents are built and accept alike.
-/

namespace JsonSchema

open Reads (Succeeds)

/-! ## Right below a schema object -/

/-- The schemas in the values of a keyword. -/
theorem Keyword.schemas_paired (k : Keyword) {v w : Json} (h : v.Reordered w) :
    Paired Json.Reordered (k.schemas v) (k.schemas w) := by
  cases k with
  | dependencies =>
    cases h.shape with
    | object _ hmembers _ =>
      refine (hmembers.map fun e f hef => hef.2).filter fun x y hxy => ?_
      cases hxy <;> rfl
    | _ => exact .nil
  | not => exact .singleton h
  | additionalProperties =>
    cases h.shape with
    | object => exact .singleton h
    | _ => exact .nil
  | items =>
    cases h.shape with
    | array => exact .nil
    | _ => exact .singleton h
  | patternProperties =>
    cases h.shape with
    | object _ hmembers _ => exact hmembers.map fun e f hef => hef.2
    | _ => exact .nil
  | allOf | anyOf | oneOf =>
    cases h.shape with
    | array hitems => exact .of_forall₂ hitems
    | _ => exact .nil
  | _ => exact .nil

section Objects

variable {o : Options} {ms ns : Members}

/-- A schema right below a schema object stands right below the other object as well. -/
theorem Members.Position.reordered (h : (Json.object ms).Reordered (.object ns)) {x : Json}
    (hx : ms.Position o x) : ∃ y, ns.Position o y ∧ x.Reordered y := by
  cases hx with
  | @keyword k v x hk hv hx =>
    obtain ⟨w, hw, hvw⟩ := exists_right_of_rel (h.lookup k.name) hv
    obtain ⟨y, hy, hxy⟩ := (k.schemas_paired hvw).left x hx
    exact ⟨y, .keyword hk hw hy, hxy⟩
  | tuple ht hx =>
    obtain ⟨ys, hys, hitems⟩ := exists_right_of_rel (tuple?_rel h) ht
    obtain ⟨y, hy, hxy⟩ := (Paired.of_forall₂ hitems).left _ hx
    exact ⟨y, .tuple hys hy, hxy⟩
  | additionalItems ht hl =>
    obtain ⟨ys, hys, -⟩ := exists_right_of_rel (tuple?_rel h) ht
    obtain ⟨w, hw, hvw⟩ := exists_right_of_rel (h.lookup "additionalItems") hl
    obtain ⟨qs, rfl⟩ := Json.Reordered.exists_object hvw
    exact ⟨_, .additionalItems hys hw, hvw⟩
  | @property ps e ht hl he =>
    obtain ⟨w, hw, hvw⟩ := exists_right_of_rel (h.lookup "properties") hl
    obtain ⟨qs, rfl⟩ := Json.Reordered.exists_object hvw
    obtain ⟨f, hf, hef⟩ := hvw.members.left e he
    refine ⟨f.2, .property ?_ hw hf, hef.2⟩
    have htuple := tuple?_rel h
    rw [ht] at htuple
    cases hn : tuple? ns with
    | none => rfl
    | some ys =>
      rw [hn] at htuple
      cases htuple

theorem Members.Names.reordered (h : (Json.object ms).Reordered (.object ns)) {k : Target}
    (hk : ms.Names o k) : ns.Names o k := by
  cases hk with
  | format hl hs => exact .format ((h.lookup_eq_some_iff rfl).1 hl) hs
  | reference hreg hl => exact .reference hreg ((h.lookup_eq_some_iff rfl).1 hl)

end Objects

/-- A compiler that succeeds for the schemas that are well-formed for themselves. -/
noncomputable def Compiler.tolerant : Compiler Reads := .testing (fun _ => True) fun _ => True

theorem Compiler.tolerant_schema {o : Options} (ho : o.keywords = []) (x : Json) :
    Succeeds (tolerant.schema [] o x) ↔ x.WellFormed o :=
  (testing_schema ho).trans (and_iff_left ⟨fun _ _ _ _ => trivial, fun _ _ _ _ => trivial⟩)

theorem Compiler.tolerant_agree :
    Agree True tolerant tolerant (fun _ _ => True) (fun _ _ => True) where
  read _ := rfl
  read' _ := rfl
  node _ _ _ _ _ := by
    simp only [tolerant, testing, if_true]
    exact .ok trivial
  target _ _ _ := by
    simp only [tolerant, testing, if_true]
    exact .ok rfl

/-- Reordered schemas are well-formed for themselves alike. -/
theorem Json.WellFormed.reordered {o : Options} (ho : o.keywords = []) {x y : Json}
    (h : x.Reordered y) (hx : x.WellFormed o) : y.WellFormed o := by
  have hagree := Compiler.tolerant_agree.schema [] [] ho h fun _ _ _ _ _ _ _ _ _ => trivial
  rw [← Compiler.tolerant_schema ho] at hx ⊢
  exact (hagree.succeeds trivial).1 hx

/-! ## Reordered documents -/

/-- No reference of a schema that is reached is the identifier of two objects of the document. -/
def Json.NamedOnce (root : Json) (o : Options) : Prop :=
  ∀ (ms : Members) (text : String), Reachable root o (.object ms) →
    ms.Names o (.reference text) → root.IdOnce text

/-- This holds if no reference that the documents hold is the identifier of two objects. -/
theorem Json.NamedOnce.of_references {root : Json} {o : Options}
    (h : ∀ text ∈ (Targets.documents root o).flatMap references, (root.bearers text).length ≤ 1) :
    root.NamedOnce o := by
  intro ms text hms hk
  obtain ⟨d, hd, hinside⟩ := hms.held
  cases hk with
  | reference _ hl =>
    refine .of_bearers (h text (List.mem_flatMap.2 ⟨d, hd, references_of_inside hinside ?_⟩))
    exact mem_referencesMembers.2 (.inl (mem_of_lookup hl))

/-- Documents that differ in the order of members only, without registered keywords and without
references that could denote two objects. -/
structure Reordering (root root' : Json) (o : Options) : Prop where
  keywords : o.keywords = []
  distinct : ∀ d ∈ Targets.documents root o, d.distinct
  reordered : root.Reordered root'
  named : root.NamedOnce o

namespace Reordering

theorem of_isRead {root root' : Json} {o : Options} (hkeywords : o.keywords = [])
    (hd : ∀ d ∈ Targets.documents root o, d.IsRead) (h : root.Reordered root')
    (hnamed : root.NamedOnce o) : Reordering root root' o :=
  ⟨hkeywords, fun d hmem => (hd d hmem).distinct, h, hnamed⟩

variable {root root' : Json} {o : Options} (h : Reordering root root' o)
include h

theorem schema? {ms : Members} {k : Target} (hms : Reachable root o (.object ms))
    (hk : ms.Names o k) : OptionReordered (k.schema? root o) (k.schema? root' o) := by
  refine Target.schema?_reordered h.reordered h.distinct ?_
  rintro text rfl
  exact h.named ms text hms hk

theorem reachable_left {x : Json} (hx : Reachable root o x) :
    ∃ y, Reachable root' o y ∧ x.Reordered y := by
  induction hx with
  | root => exact ⟨root', .root, h.reordered⟩
  | position _ hx ih =>
    obtain ⟨z, hz, hmz⟩ := ih
    obtain ⟨ns, rfl⟩ := hmz.exists_object
    obtain ⟨y, hy, hxy⟩ := hx.reordered hmz
    exact ⟨y, .position hz hy, hxy⟩
  | target hms hk hx ih =>
    obtain ⟨z, hz, hmz⟩ := ih
    obtain ⟨ns, rfl⟩ := hmz.exists_object
    obtain ⟨y, hy, hxy⟩ := exists_right_of_rel (h.schema? hms hk) hx
    exact ⟨y, .target hz (hk.reordered hmz) hy, hxy⟩

theorem reachable_right {y : Json} (hy : Reachable root' o y) :
    ∃ x, Reachable root o x ∧ x.Reordered y := by
  induction hy with
  | root => exact ⟨root, .root, h.reordered⟩
  | position _ hy ih =>
    obtain ⟨z, hz, hzn⟩ := ih
    obtain ⟨ms, rfl⟩ := hzn.symm.exists_object
    obtain ⟨x, hx, hyx⟩ := hy.reordered hzn.symm
    exact ⟨x, .position hz hx, hyx.symm⟩
  | target _ hk hy ih =>
    obtain ⟨z, hz, hzn⟩ := ih
    obtain ⟨ms, rfl⟩ := hzn.symm.exists_object
    -- it is the first document whose references are known to denote one object
    have hk := hk.reordered hzn.symm
    obtain ⟨x, hx, hxy⟩ := exists_left_of_rel (h.schema? hz hk) hy
    exact ⟨x, .target hz hk hx, hxy⟩

/-- **Both documents can be built, or neither.** -/
theorem build_iff : (∃ w, o.build root = .ok w) ↔ ∃ w', o.build root' = .ok w' := by
  rw [o.build_iff_wellFormed h.keywords, o.build_iff_wellFormed h.keywords]
  constructor
  · intro hroot y hy
    obtain ⟨x, hx, hxy⟩ := h.reachable_right hy
    exact (hroot x hx).reordered h.keywords hxy
  · intro hroot' x hx
    obtain ⟨y, hy, hxy⟩ := h.reachable_left hx
    exact (hroot' y hy).reordered h.keywords hxy.symm

end Reordering

/-! ## Runs side by side -/

theorem Json.sameShape_refl (v : Json) : v.SameShape (· = ·) v := by
  cases v with
  | null => exact .null
  | bool b => exact .bool b
  | number a => exact .number (a.same_of_eq a rfl)
  | string s => exact .string s
  | array xs => exact .array (List.forall₂_same.2 fun _ _ => rfl)
  | object ms =>
    refine .object rfl (.refl fun _ _ => ⟨rfl, rfl⟩) fun name => ?_
    cases ms.lookup name with
    | none => exact .none
    | some x => exact .some rfl

namespace Heading.Agrees

variable {h h' : Heading} (hh : h.Agrees h')
include hh

theorem acceptsType_eq (v : Json) : h.acceptsType v = h'.acceptsType v := by
  rw [acceptsType, acceptsType, hh.types]

theorem missing_eq (v : Json) : h.missing v = h'.missing v := by
  cases v with
  | object ms => rw [missing, missing, hh.requiredNames]
  | _ => rfl

theorem allowsAbsent_eq : h.allowsAbsent = h'.allowsAbsent := by
  rw [allowsAbsent, allowsAbsent, hh.required, hh.default]

end Heading.Agrees

/-- The nodes of corresponding schemas that are reached, in the tables of two documents. -/
def Node.Together (root root' : Json) (o : Options) (T T' : Subroutines) (n n' : Node) : Prop :=
  ∃ x y, (Reachable root o x ∧ Reachable root' o y ∧ x.Reordered y) ∧
    Plan.Settled ⟨o, .of root o⟩ T x n ∧ Plan.Settled ⟨o, .of root' o⟩ T' y n'

/-- Compiling a target against the table of a build says whether the table has it. -/
theorem Options.build_target {o : Options} {schema : Json} {w : Validator}
    (hw : o.build schema = .ok w) {place : Path} {k : Target} {b : Bool}
    (h : (Plan.settled ⟨o, .of schema o⟩ w.subroutines).target place k = .ok b) :
    b = (w.subroutines.lookup k).isSome := by
  rcases lookup_of_compileTarget (Build.steady_eq_ok.1 h) with ⟨hk, rfl⟩ | ⟨hk, rfl⟩
  · exact hk.symm
  · cases hn : w.subroutines.lookup k with
    | none => rfl
    | some n =>
      obtain ⟨x, hx, -⟩ := (compile_complete (build_eq_ok.1 hw).1).entry _ (mem_of_lookup hn)
      rw [hk] at hx
      cases hx

namespace Reordering

variable {root root' : Json} {o : Options} (h : Reordering root root' o) {w w' : Validator}
  (hw : o.build root = .ok w) (hw' : o.build root' = .ok w')
include h hw hw'

theorem lookup_of_names {ms : Members} {k : Target} (hms : Reachable root o (.object ms))
    (hk : ms.Names o k) :
    Option.Rel (Node.Together root root' o w.subroutines w'.subroutines) (w.subroutines.lookup k)
      (w'.subroutines.lookup k) := by
  obtain ⟨y, hy, hmy⟩ := h.reachable_left hms
  obtain ⟨ns, rfl⟩ := hmy.exists_object
  have hk' := hk.reordered hmy
  have hleft := Options.build_lookup hw hms hk
  have hright := Options.build_lookup hw' hy hk'
  have hschema := h.schema? hms hk
  generalize hx : k.schema? root o = x, hz : k.schema? root' o = z at hleft hright hschema
  generalize w.subroutines.lookup k = a, w'.subroutines.lookup k = b at hleft hright
  cases hschema with
  | none =>
    cases hleft
    cases hright
    exact .none
  | some hxy =>
    cases hleft with
    | some hn =>
      cases hright with
      | some hn' => exact .some ⟨_, _, ⟨.target hms hk hx, .target hy hk' hz, hxy⟩, hn, hn'⟩

theorem lookup (k : Target) :
    Option.Rel (Node.Together root root' o w.subroutines w'.subroutines) (w.subroutines.lookup k)
      (w'.subroutines.lookup k) := by
  cases hn : w.subroutines.lookup k with
  | some n =>
    obtain ⟨ms, hms, hk, -⟩ := Options.build_reached hw hn
    exact hn ▸ h.lookup_of_names hw hw' hms hk
  | none =>
    cases hn' : w'.subroutines.lookup k with
    | none => exact .none
    | some n' =>
      -- a target that only the second table has would be reached in the first document as well
      obtain ⟨ns, hns, hk, -⟩ := Options.build_reached hw' hn'
      obtain ⟨x, hx, hxn⟩ := h.reachable_right hns
      obtain ⟨ms, rfl⟩ := hxn.symm.exists_object
      exact hn ▸ hn' ▸ h.lookup_of_names hw hw' hx (hk.reordered hxn.symm)

/-- Against the tables of both builds corresponding schemas compile alike. -/
theorem agree :
    Compiler.Agree False (Plan.settled ⟨o, .of root o⟩ w.subroutines)
      (Plan.settled ⟨o, .of root' o⟩ w'.subroutines)
      (fun x y => Reachable root o x ∧ Reachable root' o y ∧ x.Reordered y)
      (Node.Together root root' o w.subroutines w'.subroutines) where
  read _ := rfl
  read' _ := rfl
  node x y hxy place place' := by
    refine ⟨False.elim, fun n n' hn hn' => ⟨x, y, hxy, ?_, ?_⟩⟩
    · exact ⟨place, Build.steady_eq_ok.1 hn⟩
    · exact ⟨place', Build.steady_eq_ok.1 hn'⟩
  target k place place' := by
    refine ⟨False.elim, fun b b' hb hb' => ?_⟩
    rw [Options.build_target hw hb, Options.build_target hw' hb']
    have hlookup := h.lookup hw hw' k
    generalize w.subroutines.lookup k = x, w'.subroutines.lookup k = y at hlookup
    cases hlookup <;> rfl

theorem mirrors {n n' : Node}
    (hn : n.Together root root' o w.subroutines w'.subroutines n') :
    n.Mirrors (Node.Together root root' o w.subroutines w'.subroutines) n' := by
  obtain ⟨x, y, ⟨hx, hy, hxy⟩, hn, hn'⟩ := hn
  obtain ⟨location, hn⟩ := hn.schema
  obtain ⟨location', hn'⟩ := hn'.schema
  refine ((h.agree hw hw').schema location location' h.keywords hxy ?_).results n n' hn hn'
  rintro ms ns rfl rfl v w hv hw hvw
  exact ⟨.position hx hv, .position hy hw, hvw⟩

/-- **The runs of both validators go side by side.** -/
theorem simulates : w.scope.Simulates w'.scope (· = ·)
    (Node.Together root root' o w.subroutines w'.subroutines) where
  value := by
    rintro v _ rfl
    exact v.sameShape_refl
  type := by
    rintro n n' v _ hn rfl
    rw [(h.mirrors hw hw' hn).heading.acceptsType_eq]
  missing := by
    rintro n n' v _ hn rfl
    rw [(h.mirrors hw hw' hn).heading.missing_eq]
  absent n n' hn := by rw [(h.mirrors hw hw' hn).heading.allowsAbsent_eq]
  checks n n' hn := (h.mirrors hw hw' hn).checks
  target n n' _ c _ k _ := h.lookup hw hw' k

theorem isValid_eq (v : Json) : w.isValid v = w'.isValid v := by
  have hsettled := (compile_complete (Options.build_eq_ok.1 hw).1).root
  have hsettled' := (compile_complete (Options.build_eq_ok.1 hw').1).root
  have hroot : w.root.Together root root' o w.subroutines w'.subroutines w'.root :=
    ⟨root, root', ⟨.root, .root, h.reordered⟩, hsettled, hsettled'⟩
  exact (h.simulates hw hw').isValid_eq hroot rfl

end Reordering

/-- **The order of members in a schema does not decide acceptance.** Of two documents that differ in
the order of members only, at any depth, both can be built or neither, and their validators accept
the same values, whatever cycles of references there are. No keywords are registered, and no
reference is the identifier of two objects. -/
theorem Options.build_reordered (o : Options) (ho : o.keywords = []) {root root' : Json}
    (hd : ∀ d ∈ Targets.documents root o, d.distinct) (h : root.Reordered root')
    (hnamed : root.NamedOnce o) :
    ((∃ w, o.build root = .ok w) ↔ ∃ w', o.build root' = .ok w') ∧
      ∀ w w', o.build root = .ok w → o.build root' = .ok w' → ∀ v, w.isValid v = w'.isValid v := by
  have hr : Reordering root root' o := ⟨ho, hd, h, hnamed⟩
  exact ⟨hr.build_iff, fun w w' hw hw' => hr.isValid_eq hw hw'⟩

/-- Two schemas that refer to each other by their identifiers, through `not` and `oneOf`. All
members stand in an order of choice. -/
def circular (order : Members → Members) : Json :=
  .object (order
    [("$ref", .string "even"),
      ("definitions", .object (order
        [("odd", .object (order
            [("$id", .string "odd"), ("not", .object [("$ref", .string "even")])])),
          ("even", .object (order
            [("$id", .string "even"),
              ("oneOf", .array
                [.object [("$ref", .string "odd")],
                  .object [("maxItems", .number (.integer 0))]])]))]))])

theorem circular_reordered : (circular id).Reordered (circular List.reverse) := by
  have hsame (v : Json) (hv : v.distinct) : v.Reordered v := .refl (fun _ => rfl) v hv
  have htwo {a b : String} {v v' w w' : Json} (hab : a ≠ b) (hv : v.Reordered v')
      (hw : w.Reordered w') :
      (Json.object [(a, v), (b, w)]).Reordered (.object [(b, w'), (a, v')]) := by
    have hmembers : List.Forall₂ (SameKey Json.Reordered) [(a, v), (b, w)] [(a, v'), (b, w')] :=
      .cons ⟨rfl, hv⟩ (.cons ⟨rfl, hw⟩ .nil)
    exact .of_perm (by simpa using hab) hmembers (.swap _ _ _)
  refine htwo (by decide) (hsame _ rfl) (htwo (by decide) ?_ ?_)
  · exact htwo (by decide) (hsame _ rfl) (hsame _ (by decide))
  · exact htwo (by decide) (hsame _ rfl) (hsame _ (by decide))

theorem Options.build_reordered_circular :
    ∃ w w', build {} (circular id) = .ok w ∧ build {} (circular List.reverse) = .ok w' ∧
      (w.isValid (.array []), w.isValid (.array [.null])) = (true, false) ∧
        ∀ v, w.isValid v = w'.isValid v := by
  have hrun : (build {} (circular id)).toOption.map (fun w =>
      (w.isValid (.array []), w.isValid (.array [.null]))) = some (true, false) := by
    decide +kernel
  obtain ⟨w, hw, hverdicts⟩ := build_of_run hrun
  have hnamed : (circular id).NamedOnce {} := .of_references (by decide +kernel)
  obtain ⟨hbuild, hvalid⟩ := build_reordered {} rfl (by decide) circular_reordered hnamed
  obtain ⟨w', hw'⟩ := hbuild.1 ⟨w, hw⟩
  exact ⟨w, w', hw, hw', hverdicts, hvalid w w' hw hw'⟩

end JsonSchema
