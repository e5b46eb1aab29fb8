import JsonSchema.Proofs.Agreement
import JsonSchema.Proofs.Divisibility
import JsonSchema.Proofs.Documents

/-!
# Validators that divide exactly

What a schema means depends on the division only through its whole divisors and the numbers of the
value. A validator accepts what its schema means by exact division, if no divisor has to be rounded
or no number is a double. Otherwise it rounds the divisor, and may accept a value that the schema
does not.

* `Division.Agree`: two divisions agree on the divisors of a schema and the numbers of a value;
* `accepts_congr`: the meaning is then the same;
* `Validator.isValid_iff_accepts`: a validator accepts what its schema means;
* `Validator.isValid_of_rounded`: a validator that accepts more.
-/

namespace JsonSchema

namespace Division

/-- Two divisions agree on the whole divisors of a schema and the numbers of a value. -/
def Agree (D D' : Division) (schema v : Json) : Prop :=
  ∀ ms divisor n a, (Json.object ms).Inside schema →
    ms.lookup "multipleOf" = some (.number divisor) → divisor.IsWhole n →
      (Json.number a).Inside v → (D n a ↔ D' n a)

variable {D D' : Division} {schema s v w : Json}

theorem Agree.inside (h : D.Agree D' schema v) (hs : s.Inside schema) (hw : w.Inside v) :
    D.Agree D' s w :=
  fun ms divisor n a hms hdivisor hn ha =>
    h ms divisor n a (hms.trans hs) hdivisor hn (ha.trans hw)

end Division

/-! ## Keywords -/

section Clauses

variable {D D' : Division} {o : Options} {ms : Members} {x v : Json}

theorem Keyword.admits_congr {k : Keyword} (hx : ms.lookup k.name = some x)
    (h : D.Agree D' (.object ms) v) : k.Admits D ms x v ↔ k.Admits D' ms x v := by
  cases k with
  | multipleOf =>
    cases x with
    | number divisor =>
      cases v with
      | number a =>
        refine and_congr_left fun _ => forall₂_congr fun n hn => ?_
        exact h ms divisor n a .refl hx hn .refl
      | _ => exact Iff.rfl
    | _ => exact Iff.rfl
  | _ =>
    rcases x with _ | ⟨_ | _⟩ | _ | _ | _ | _ <;> cases v <;> exact Iff.rfl

theorem PartHolds.congr {part : Option Json} {P Q : Json → Prop} {absent : Prop}
    (h : ∀ w, part = some w → (P w ↔ Q w)) : PartHolds part P absent ↔ PartHolds part Q absent := by
  cases part with
  | none => exact Iff.rfl
  | some w => exact h w rfl

variable (hsub : ∀ s w, sizeOf s < sizeOf (Json.object ms) → s.Inside (.object ms) →
  w.Inside v → (Accepts D o s w ↔ Accepts D' o s w))
include hsub

theorem accepts_congr_keyword {name : String} {w : Json} (hx : ms.lookup name = some x)
    (hw : w.Inside v) : Accepts D o x w ↔ Accepts D' o x w :=
  hsub x w (sizeOf_lt_of_keyword hx) (Json.inside_of_lookup hx) hw

theorem accepts_congr_item {name : String} {xs : List Json} {s w : Json}
    (hx : ms.lookup name = some (.array xs)) (hs : s ∈ xs) (hw : w.Inside v) :
    Accepts D o s w ↔ Accepts D' o s w :=
  hsub s w (sizeOf_lt_of_item hx hs) (.trans (.part hs .refl) (Json.inside_of_lookup hx)) hw

theorem accepts_congr_entry {name : String} {entries : Members} {e : String × Json} {w : Json}
    (hx : ms.lookup name = some (.object entries)) (he : e ∈ entries) (hw : w.Inside v) :
    Accepts D o e.2 w ↔ Accepts D' o e.2 w :=
  hsub e.2 w (sizeOf_lt_of_entry hx he)
    (.trans (.part (List.mem_map_of_mem he) .refl) (Json.inside_of_lookup hx)) hw

theorem Keyword.clause_congr {k : Keyword} (hx : ms.lookup k.name = some x)
    (h : D.Agree D' (.object ms) v) : k.Clause D o ms x v ↔ k.Clause D' o ms x v := by
  cases k with
  | dependencies =>
    refine forall₂_congr fun entries hobject => forall₂_congr fun e he => ?_
    subst hobject
    rw [accepts_congr_entry hsub hx he .refl]
  | additionalProperties =>
    refine forall₂_congr fun members hobject => forall₂_congr fun m hm => ?_
    subst hobject
    rw [accepts_congr_keyword hsub hx (.part (List.mem_map_of_mem hm) .refl)]
  | not => exact not_congr (accepts_congr_keyword hsub hx .refl)
  | items =>
    refine forall_congr' fun _ => forall₂_congr fun xs harray => forall₂_congr fun y hy => ?_
    subst harray
    exact accepts_congr_keyword hsub hx (.part hy .refl)
  | patternProperties =>
    refine forall₂_congr fun entries hobject => forall₂_congr fun members hv =>
      forall₂_congr fun e he => forall₂_congr fun p _ => forall₂_congr fun m hm =>
        forall_congr' fun _ => ?_
    subst hobject hv
    exact accepts_congr_entry hsub hx he (.part (List.mem_map_of_mem hm) .refl)
  | allOf =>
    refine forall₂_congr fun ss harray => forall₂_congr fun s hs => ?_
    subst harray
    exact accepts_congr_item hsub hx hs .refl
  | anyOf =>
    refine forall₂_congr fun ss harray => forall_congr' fun _ => exists₂_congr fun s hs => ?_
    subst harray
    exact accepts_congr_item hsub hx hs .refl
  | oneOf =>
    refine forall₂_congr fun ss harray => forall_congr' fun _ => ?_
    subst harray
    have hat (i : Fin ss.length) : Accepts D o ss[i] v ↔ Accepts D' o ss[i] v :=
      accepts_congr_item hsub hx (List.getElem_mem _) .refl
    simp only [hat]
  | _ => exact admits_congr hx h

theorem tupleClause_congr : TupleClause D o ms v ↔ TupleClause D' o ms v := by
  refine forall₂_congr fun ss hss => forall₂_congr fun xs harray => forall_congr' fun i => ?_
  refine PartHolds.congr fun x hx => ?_
  subst harray
  exact accepts_congr_item hsub hss (List.getElem_mem _) (.part (List.mem_of_getElem? hx) .refl)

theorem additionalItemsClause_congr :
    AdditionalItemsClause D o ms v ↔ AdditionalItemsClause D' o ms v := by
  refine forall₂_congr fun ss _ => forall₂_congr fun x hx => forall₂_congr fun xs harray =>
    forall₂_congr fun y hy => ?_
  subst harray
  rw [accepts_congr_keyword hsub hx (.part (List.mem_of_mem_drop hy) .refl)]

theorem propertiesClause_congr : PropertiesClause D o ms v ↔ PropertiesClause D' o ms v := by
  refine forall₂_congr fun entries hentries => forall₂_congr fun _ _ => forall₂_congr fun e he => ?_
  refine PartHolds.congr fun w hw => ?_
  exact accepts_congr_entry hsub hentries he (Json.inside_of_get? hw)

end Clauses

/-- Divisions that agree on a schema and a value give the schema the same meaning. -/
theorem accepts_congr {D D' : Division} {o : Options} (schema : Json) :
    ∀ v, D.Agree D' schema v → (Accepts D o schema v ↔ Accepts D' o schema v) := by
  induction schema using (measure (sizeOf (α := Json))).wf.induction with
  | h schema ih =>
    intro v h
    cases schema with
    | object ms =>
      have hsub : ∀ s w, sizeOf s < sizeOf (Json.object ms) → s.Inside (.object ms) →
          w.Inside v → (Accepts D o s w ↔ Accepts D' o s w) :=
        fun s w hlt hs hw => ih s hlt w (h.inside hs hw)
      rw [accepts_object_iff, accepts_object_iff, tupleClause_congr hsub,
        additionalItemsClause_congr hsub, propertiesClause_congr hsub]
      refine and_congr_right fun _ => and_congr_right fun _ => and_congr_right fun _ =>
        and_congr_left fun _ => forall₂_congr fun k x => forall_congr' fun hx => ?_
      exact Keyword.clause_congr hsub hx h
    | bool b => simp [accepts_bool]
    | _ => simp [Accepts]

/-! ## Validators -/

/-- No whole divisor of a schema has to be rounded to divide the numbers of a value. -/
def Json.DividesExactly (schema v : Json) : Prop :=
  ∀ ms divisor n, (Json.object ms).Inside schema →
    ms.lookup "multipleOf" = some (.number divisor) → divisor.IsWhole n →
      Significant n ∨ ∀ x, ¬(Json.number (.double x)).Inside v

theorem Json.DividesExactly.agree {schema v : Json} (h : schema.DividesExactly v) :
    Division.rounded.Agree .exact schema v := by
  intro ms divisor n a hms hdivisor hn ha
  refine Division.rounded_iff_exact ((h ms divisor n hms hdivisor hn).imp_right fun hno x hx => ?_)
  exact hno x (hx ▸ ha)

namespace Validator

/-- **A validator accepts what its schema means.** Without references, custom keywords and schemas
as formats, and whatever the greedy setting, the verdict of a run on a value is what the document
says of the value, as long as no divisor has to be rounded to divide a double. In general, doubles
are divided by rounded divisors. -/
theorem isValid_iff_accepts {o : Options} {schema : Json} {w : Validator}
    (hbuild : o.build schema = .ok w) (ho : o.Plain) (hrefs : schema.references = []) (v : Json) :
    (schema.DividesExactly v → (w.isValid v = true ↔ Accepts .exact o schema v)) ∧
      (w.isValid v = true ↔ Accepts .rounded o schema v) := by
  have hrounded := isValid_iff_accepts_rounded hbuild ho hrefs v
  exact ⟨fun h => hrounded.trans (accepts_congr schema v h.agree), hrounded⟩

/-- An object with a name that is not null, whose size is a multiple of three, and nothing else. A
null will do as well. -/
def named : Json := .object
  [("type", .array [.string "object", .string "null"]),
    ("properties", .object
      [("name", .object [("required", .bool true), ("not", .object [("type", .string "null")])]),
        ("size", .object [("multipleOf", .number (.integer 3))])]),
    ("additionalProperties", .bool false)]

/-- Six is a size, although it is written as a double, and seven is none. -/
theorem isValid_iff_accepts_named :
    Accepts .exact { greedy := true } named
        (.object [("name", .bool true), ("size", .number (.double (.ofInt 6)))]) ∧
      ¬Accepts .exact { greedy := true } named
        (.object [("name", .bool true), ("size", .number (.double (.ofInt 7)))]) := by
  have hrun : ((Options.build { greedy := true } named).toOption.map fun w =>
      (w.isValid (.object [("name", .bool true), ("size", .number (.double (.ofInt 6)))]),
        w.isValid (.object [("name", .bool true), ("size", .number (.double (.ofInt 7)))]))) =
        some (true, false) := by decide +kernel
  obtain ⟨w, hbuild, h⟩ := Options.build_of_run hrun
  obtain ⟨hgood, hbad⟩ := Prod.mk.inj h
  have hplain : Options.Plain { greedy := true } := ⟨rfl, fun name s => nofun⟩
  have hrefs : named.references = [] := by decide
  have hexact (v : Json) : named.DividesExactly v := by
    intro ms divisor n hms hdivisor hn
    simp only [named, Json.inside_object, Json.inside_array, Json.inside_string,
      Json.inside_number, Json.inside_bool, List.exists_mem_cons_iff, List.not_mem_nil, false_and,
      exists_false, or_false, Json.object.injEq, reduceCtorEq, false_or] at hms
    obtain rfl : divisor = .integer 3 := by
      rcases hms with rfl | rfl | (rfl | rfl) | rfl <;> cases hdivisor
      rfl
    rw [Number.isWhole_integer] at hn
    obtain rfl : n = 3 := by omega
    exact .inl ⟨3, 0, by decide, rfl⟩
  constructor
  · exact ((isValid_iff_accepts hbuild hplain hrefs _).1 (hexact _)).1 hgood
  · rw [← (isValid_iff_accepts hbuild hplain hrefs _).1 (hexact _), hbad]
    exact Bool.false_ne_true

/-- A validator accepts a double that is no multiple of the divisor of its schema. -/
theorem isValid_of_rounded :
    Options.Plain {} ∧
      (Json.object [("multipleOf", .number (.integer 9007199254740993))]).references = [] ∧
      ∃ w, Options.build {} (.object [("multipleOf", .number (.integer 9007199254740993))]) =
          .ok w ∧
        w.isValid (.number (.double (.ofInt 9007199254740992))) = true ∧
        ¬Accepts .exact {} (.object [("multipleOf", .number (.integer 9007199254740993))])
          (.number (.double (.ofInt 9007199254740992))) := by
  have hrun : ((Options.build {}
      (.object [("multipleOf", .number (.integer 9007199254740993))])).toOption.map fun w =>
        w.isValid (.number (.double (.ofInt 9007199254740992)))) = some true := by decide +kernel
  obtain ⟨w, hw, hvalid⟩ := Options.build_of_run hrun
  refine ⟨⟨rfl, fun name s => nofun⟩, by decide, w, hw, hvalid, fun haccepts => ?_⟩
  rw [accepts_object_iff] at haccepts
  have hmultiple := haccepts.2.2.2.1 .multipleOf (.number (.integer 9007199254740993)) rfl
  obtain ⟨k, hk⟩ := hmultiple.1 9007199254740993 (.inl rfl)
  have hvalue := Double.value_ofInt (n := 9007199254740992) ⟨1, 53, by decide, by decide⟩
  have hk : (9007199254740992 : Int) = k * 9007199254740993 := by
    have h : ((9007199254740992 : Nat) : ℚ) = k * (9007199254740993 : Nat) := hvalue.symm.trans hk
    exact_mod_cast h
  omega

end Validator

end JsonSchema
