import JsonSchema.Proofs.Positions

/-!
# Well-formed schemas

What a schema object must look like for itself, the schemas below it and the targets that it names
aside. The keywords that a tuple supersedes may have any value.

* `Keyword.HasShape`: the values that a keyword may have;
* `Json.WellFormed`: the schemas that are well-formed for themselves;
* `Compiler.testing_schema`: a schema can be compiled if it is well-formed and what is below it can
  be compiled.
-/

namespace JsonSchema

/-! ## Values of keywords -/

namespace Number

/-- Sizes are the non-negative integers, in either form. -/
theorem size?_isSome_iff (a : Number) : a.size?.isSome ↔ ∃ size : ℕ, a.value = size := by
  have hsize : a.size?.isSome ↔ 0 ≤ a.value ∧ ∃ n : Int, a.value = n := by
    cases a with
    | integer n =>
      rw [size?, value_integer]
      split <;> simp_all
    | double x =>
      rw [← nonneg_iff_value, ← isInteger_iff_value, size?]
      show _ ↔ 0 ≤ x.signedUnits ∧ x.isWhole = true
      split <;> simp_all
  rw [hsize]
  constructor
  · rintro ⟨h, n, hn⟩
    rw [hn] at h ⊢
    obtain ⟨size, rfl⟩ := Int.eq_ofNat_of_zero_le (Int.cast_nonneg_iff.1 h)
    exact ⟨size, by simp⟩
  · rintro ⟨size, hn⟩
    rw [hn]
    exact ⟨Nat.cast_nonneg size, size, by simp⟩

end Number

theorem Divisor.ofNumber?_isSome_iff (a : Number) : (ofNumber? a).isSome ↔ 0 < a.value := by
  rw [← Number.pos_iff_value]
  cases a with
  | integer n =>
    have h : 0 < (Number.integer n).signedUnits ↔ 0 < n := by
      rw [Number.pos_iff_value, Number.value_integer, Int.cast_pos]
    rw [h, ofNumber?]
    split <;> simp_all
  | double x =>
    show _ ↔ 0 < x.signedUnits
    rw [ofNumber?]
    split <;> simp_all

/-- A text that is a regular expression. -/
def IsPattern (text : String) : Prop := (Pattern.parse? text).isSome

def AreStrings (xs : List Json) : Prop := ∀ x ∈ xs, ∃ s, x = .string s

namespace Json

/-- The name of a type, or `any`. -/
def IsTypeName (v : Json) : Prop := v = .string "any" ∨ ∃ t : TypeName, v = .string t.name

/-- A type name, or a list of them. -/
def IsType (v : Json) : Prop :=
  v.IsTypeName ∨ ∃ names, v = .array names ∧ ∀ x ∈ names, x.IsTypeName

/-- What `required` may be: a boolean or a list of names. -/
def IsRequired (v : Json) : Prop :=
  (∃ b, v = .bool b) ∨ ∃ names, v = .array names ∧ AreStrings names

def IsSize (v : Json) : Prop := ∃ n : Number, v = .number n ∧ ∃ size : ℕ, n.value = size

/-- A bound, beside which the given member is a flag if it is there. -/
def IsBound (ms : Members) (exclusive : String) (v : Json) : Prop :=
  (∃ n, v = .number n) ∧ ∀ x, ms.lookup exclusive = some x → ∃ b, x = .bool b

end Json

/-- A format is known if it is registered as a schema or has a test of strings. -/
def Options.KnowsFormat (o : Options) (name : String) : Prop :=
  (∃ s, o.formats.lookup name = some (.schema s)) ∨ (o.formatTest? name).isSome

/-- The values that a keyword of a schema object may have. -/
def Keyword.HasShape (ms : Members) (v : Json) : Keyword → Prop
  | .uniqueItems => ∃ b, v = .bool b
  | .enum | .allOf | .anyOf | .oneOf => ∃ xs, v = .array xs
  | .dependencies => ∃ entries, v = .object entries ∧
    ∀ name names, (name, .array names) ∈ entries → AreStrings names
  | .additionalProperties => v.isSchema = true
  | .reference => ∃ text, v = .string text
  | .not | .items => True
  | .patternProperties => ∃ entries, v = .object entries ∧ ∀ e ∈ entries, IsPattern e.1
  | .pattern => ∃ text, v = .string text ∧ IsPattern text
  | .multipleOf => ∃ n : Number, v = .number n ∧ 0 < n.value
  | .maxProperties | .minProperties | .maxItems | .minItems | .maxLength | .minLength => v.IsSize
  | .minimum => v.IsBound ms "exclusiveMinimum"
  | .maximum => v.IsBound ms "exclusiveMaximum"

/-! ## Schemas -/

/-- A schema object that is well-formed for itself. Beside a tuple, `type` and `properties` may be
anything; without one, `additionalItems` may. -/
structure Members.WellFormed (o : Options) (ms : Members) : Prop where
  known : ∀ e ∈ ms, Keyword.isKnown e.1 = true
  type : tuple? ms = none → ∀ v, ms.lookup "type" = some v → v.IsType
  required : ∀ v, ms.lookup "required" = some v → v.IsRequired
  additionalItems : ∀ xs, tuple? ms = some xs → ∀ v, ms.lookup "additionalItems" = some v →
    v.isSchema = true
  format : ∀ v, ms.lookup "format" = some v → ∃ name, v = .string name ∧ o.KnowsFormat name
  keyword : ∀ (k : Keyword) v, ms.lookup k.name = some v → k.HasShape ms v
  properties : tuple? ms = none → ∀ v, ms.lookup "properties" = some v → ∃ ps, v = .object ps

/-- A boolean, or a schema object that is well-formed for itself. -/
def Json.WellFormed (o : Options) : Json → Prop
  | .object ms => Members.WellFormed o ms
  | .bool _ => True
  | _ => False

/-! ## Readers that succeed -/

namespace Reads

variable {α β : Type} {P Q : Prop}

def Succeeds (r : Reads α) : Prop := ∃ a, r = .ok a

@[simp] theorem succeeds_ok (a : α) : Succeeds (.ok a) := ⟨a, rfl⟩

@[simp] theorem succeeds_pure (a : α) : Succeeds (pure a) := ⟨a, rfl⟩

@[simp] theorem not_succeeds_error (e : SchemaError) : ¬Succeeds (.error e : Reads α) := by
  rintro ⟨a, h⟩
  cases h

/-- One reader after another whose success does not depend on what the first one returns. -/
theorem succeeds_bind {r : Reads α} {f : α → Reads β} (hr : Succeeds r ↔ P)
    (hf : ∀ a, Succeeds (f a) ↔ Q) : Succeeds (r >>= f) ↔ P ∧ Q := by
  rw [← hr]
  cases r with
  | error e => exact iff_of_false (not_succeeds_error e) fun h => not_succeeds_error e h.1
  | ok a => exact (hf a).trans (and_iff_right (succeeds_ok a)).symm

theorem succeeds_map {r : Reads α} {f : α → β} (hr : Succeeds r ↔ P) :
    Succeeds (do return f (← r)) ↔ P :=
  (succeeds_bind hr fun a => iff_of_true (succeeds_pure (f a)) trivial).trans (and_iff_left trivial)

theorem succeeds_mapM {R : α → Prop} {f : α → Reads β} {xs : List α}
    (hf : ∀ x ∈ xs, Succeeds (f x) ↔ R x) : Succeeds (xs.mapM f) ↔ ∀ x ∈ xs, R x := by
  induction xs with
  | nil => exact iff_of_true (succeeds_pure []) (by simp)
  | cons x xs ih =>
    obtain ⟨hx, hxs⟩ := List.forall_mem_cons.1 hf
    rw [List.mapM_cons, List.forall_mem_cons]
    exact succeeds_bind hx fun y => succeeds_map (ih hxs)

end Reads

open Reads (Succeeds succeeds_ok succeeds_pure not_succeeds_error succeeds_bind succeeds_map
  succeeds_mapM)

section Readers

variable {o : Options} {location : Path} {ms : Members}

theorem checkKeywords_succeeds (ho : o.keywords = []) :
    Succeeds (checkKeywords o location ms) ↔ ∀ e ∈ ms, Keyword.isKnown e.1 = true := by
  induction ms with
  | nil => exact iff_of_true (succeeds_ok ()) (by simp)
  | cons e ms ih =>
    rw [checkKeywords, ho, List.lookup_nil, Option.isSome_none, Bool.or_false,
      List.forall_mem_cons, ← ih]
    cases Keyword.isKnown e.1 <;> simp

theorem customChecks_succeeds (ho : o.keywords = []) (rest : Members) :
    Succeeds (customChecks o location ms rest) :=
  ⟨[], customChecks_eq_nil ho location ms rest⟩

theorem readTypeName_succeeds {v : Json} :
    Succeeds (readTypeName location v) ↔ v.IsTypeName := by
  constructor
  · rintro ⟨t, ht⟩
    rw [readTypeName_eq ht]
    cases t with
    | none => exact .inl rfl
    | some t => exact .inr ⟨t, rfl⟩
  · rintro (rfl | ⟨t, rfl⟩)
    · exact ⟨none, rfl⟩
    · refine ⟨some t, ?_⟩
      rw [readTypeName, TypeName.ofName?_name, if_neg (by cases t <;> decide)]

theorem readType_succeeds {v : Json} : Succeeds (readType location v) ↔ v.IsType := by
  have hone (h : ∀ names, v ≠ .array names) : v.IsType ↔ v.IsTypeName := by
    refine or_iff_left ?_
    rintro ⟨names, hn, -⟩
    exact h names hn
  cases v with
  | array names =>
    have hname : ¬(Json.array names).IsTypeName := by simp [Json.IsTypeName]
    have htype : (Json.array names).IsType ↔ ∀ x ∈ names, x.IsTypeName :=
      (or_iff_right hname).trans (by simp)
    rw [readType, htype]
    exact succeeds_map (succeeds_mapM fun x _ => readTypeName_succeeds)
  | _ => exact succeeds_map (readTypeName_succeeds.trans (hone (by simp)).symm)

theorem readNames_succeeds {fault : SchemaError} {xs : List Json} :
    Succeeds (readNames fault xs) ↔ AreStrings xs := by
  constructor
  · rintro ⟨names, h⟩ x hx
    rw [readNames_eq h] at hx
    obtain ⟨s, -, rfl⟩ := List.mem_map.1 hx
    exact ⟨s, rfl⟩
  · intro h
    induction xs with
    | nil => exact succeeds_ok []
    | cons x xs ih =>
      obtain ⟨⟨s, rfl⟩, hxs⟩ := List.forall_mem_cons.1 h
      exact (succeeds_map (iff_of_true (ih hxs) trivial)).2 trivial

theorem readRequired_succeeds {x : Option Json} :
    Succeeds (readRequired location x) ↔ ∀ v, x = some v → v.IsRequired := by
  cases x with
  | none => exact iff_of_true (succeeds_ok _) (by simp)
  | some x =>
    cases x with
    | bool b => exact iff_of_true (succeeds_ok _) (by simp [Json.IsRequired])
    | array names =>
      rw [readRequired]
      refine succeeds_map (readNames_succeeds.trans ?_)
      simp [Json.IsRequired]
    | _ => exact iff_of_false (not_succeeds_error _) (by simp [Json.IsRequired])

theorem readHeading_succeeds :
    Succeeds (readHeading location ms) ↔
      (tuple? ms = none → ∀ v, ms.lookup "type" = some v → v.IsType) ∧
        ∀ v, ms.lookup "required" = some v → v.IsRequired := by
  have htype : Succeeds (readDeclaredType location ms) ↔
      (tuple? ms = none → ∀ v, ms.lookup "type" = some v → v.IsType) := by
    rw [readDeclaredType]
    cases tuple? ms with
    | some xs => exact iff_of_true (succeeds_ok _) (by simp)
    | none =>
      cases ms.lookup "type" with
      | none => exact iff_of_true (succeeds_ok _) (by simp)
      | some v =>
        refine succeeds_map (readType_succeeds.trans ?_)
        simp
  exact succeeds_bind htype fun _ => succeeds_map readRequired_succeeds

theorem readPattern_succeeds {place : Path} {text : String} :
    Succeeds (readPattern place text) ↔ IsPattern text := by
  rw [readPattern, IsPattern]
  cases Pattern.parse? text <;> simp

theorem Declared.read_succeeds :
    Succeeds (Declared.read location ms) ↔ ∀ text ∈ patternsOf ms, IsPattern text := by
  exact succeeds_map (succeeds_mapM fun text _ => readPattern_succeeds)

theorem readFormat_succeeds {name : String} :
    Succeeds (readFormat o location name) ↔ (o.formatTest? name).isSome := by
  rw [readFormat, Options.formatTest?]
  cases o.formats.lookup name with
  | none => cases Format.builtin? name <;> simp
  | some f =>
    cases f with
    | predicate test => exact iff_of_true (succeeds_ok _) rfl
    | pattern text =>
      refine succeeds_map (readPattern_succeeds.trans ?_)
      simp [IsPattern]
    | schema s => cases Format.builtin? name <;> simp

theorem readSize_succeeds {keyword : String} {v : Json} :
    Succeeds (readSize location keyword v) ↔ v.IsSize := by
  cases v with
  | number n =>
    have hsize : (Json.number n).IsSize ↔ n.size?.isSome := by
      simp [Json.IsSize, n.size?_isSome_iff]
    rw [readSize, hsize]
    cases n.size? <;> simp
  | _ => simp [readSize, Json.IsSize]

theorem readBound_succeeds {keyword exclusive : String} {v : Json} :
    Succeeds (readBound location ms keyword exclusive v) ↔ v.IsBound ms exclusive := by
  cases v with
  | number n =>
    rw [readBound, Json.IsBound]
    split
    · next h => simp [h]
    · next b h => simp [h]
    · next x hx h =>
      refine iff_of_false (not_succeeds_error _) fun hb => ?_
      obtain ⟨b, rfl⟩ := hb.2 x h
      exact hx b rfl
  | _ => simp [readBound, Json.IsBound]

/-- The keywords that hold schemas or name a target. -/
def Keyword.nested : List Keyword :=
  [dependencies, additionalProperties, reference, not, items, patternProperties, allOf, anyOf,
    oneOf]

/-- Any other keyword can be read if its value has the shape that it demands. -/
theorem Keyword.rule?_succeeds {k : Keyword} {v : Json} (hk : k ∉ nested) :
    Succeeds (k.rule? location ms v) ↔ k.HasShape ms v := by
  cases k with
  | uniqueItems => cases v <;> simp [rule?, HasShape]
  | enum =>
    cases v with
    | array xs => cases xs <;> simp [rule?, HasShape]
    | _ => simp [rule?, HasShape]
  | pattern =>
    cases v with
    | string text =>
      refine succeeds_map (readPattern_succeeds.trans ?_)
      simp [HasShape]
    | _ => simp [rule?, HasShape]
  | multipleOf =>
    cases v with
    | number n =>
      have hn : HasShape ms (.number n) .multipleOf ↔ (Divisor.ofNumber? n).isSome := by
        simp [HasShape, Divisor.ofNumber?_isSome_iff]
      rw [rule?, hn]
      cases Divisor.ofNumber? n <;> simp
    | _ => simp [rule?, HasShape]
  | maxProperties | minProperties | maxItems | minItems | maxLength | minLength =>
    exact succeeds_map readSize_succeeds
  | minimum | maximum => exact succeeds_map readBound_succeeds
  | _ => simp [nested] at hk

end Readers

/-! ## Schemas that can be compiled -/

namespace Compiler

open Classical in
/-- Whether a schema can be compiled if certain schemas and targets can be. -/
noncomputable def testing (p : Json → Prop) (q : Target → Prop) : Compiler Reads where
  node place x := if p x then .ok (.trivial place) else .error ⟨place, .invalidSchema⟩
  target place k := if q k then .ok true else .error ⟨place, .invalidSchema⟩
  read r := r

variable {p : Json → Prop} {q : Target → Prop} {location : Path}

@[simp] theorem testing_node {x : Json} : Succeeds ((testing p q).node location x) ↔ p x := by
  by_cases h : p x <;> simp [testing, h]

@[simp] theorem testing_target {k : Target} :
    Succeeds ((testing p q).target location k) ↔ q k := by
  by_cases h : q k <;> simp [testing, h]

theorem testing_items {xs : List Json} (i : Nat) :
    Succeeds ((testing p q).items location i xs) ↔ ∀ x ∈ xs, p x := by
  induction xs generalizing i with
  | nil => exact iff_of_true (succeeds_pure []) (by simp)
  | cons x xs ih =>
    rw [List.forall_mem_cons]
    exact succeeds_bind testing_node fun n => succeeds_map (ih (i + 1))

theorem testing_members {ms : Members} :
    Succeeds ((testing p q).members location ms) ↔ ∀ e ∈ ms, p e.2 := by
  induction ms with
  | nil => exact iff_of_true (succeeds_pure []) (by simp)
  | cons e ms ih =>
    rw [List.forall_mem_cons]
    exact succeeds_bind testing_node fun n => succeeds_map ih

theorem testing_patterns {ms : Members} :
    Succeeds ((testing p q).patterns location ms) ↔
      (∀ e ∈ ms, IsPattern e.1) ∧ ∀ e ∈ ms, p e.2 := by
  rw [← forall₂_and]
  induction ms with
  | nil => exact iff_of_true (succeeds_pure []) (by simp)
  | cons e ms ih =>
    rw [List.forall_mem_cons, and_assoc]
    refine succeeds_bind readPattern_succeeds fun t => ?_
    exact succeeds_bind testing_node fun n => succeeds_map ih

theorem testing_dependencies {entries : Members} :
    Succeeds ((testing p q).dependencies location entries) ↔
      (∀ name names, (name, .array names) ∈ entries → AreStrings names) ∧
        ∀ x ∈ Keyword.dependencies.schemas (.object entries), p x := by
  induction entries with
  | nil => exact iff_of_true (succeeds_pure []) (by simp [Keyword.schemas])
  | cons e entries ih =>
    obtain ⟨key, v⟩ := e
    have hhead {P : Prop}
        (h : Succeeds ((testing p q).dependency (location ++ [.name key]) v) ↔ P) :
        Succeeds ((testing p q).dependencies location ((key, v) :: entries)) ↔ P ∧ _ :=
      succeeds_bind h fun d => succeeds_map ih
    cases v with
    | string other =>
      refine (hhead (iff_of_true (succeeds_pure _) trivial)).trans ?_
      simp [Keyword.schemas]
    | array names =>
      refine (hhead (succeeds_map readNames_succeeds)).trans ?_
      simp [Keyword.schemas, or_imp, forall_and, and_assoc]
    | _ =>
      refine (hhead (succeeds_map testing_node)).trans ?_
      simp [Keyword.schemas, and_left_comm]

theorem testing_additionalItems {limit : Nat} {v : Json} :
    Succeeds ((testing p q).additionalItems location limit v) ↔
      v.isSchema = true ∧ ∀ ps, v = .object ps → p (.object ps) := by
  cases v with
  | bool b => cases b <;> exact iff_of_true (succeeds_pure _) (by simp [Json.isSchema])
  | object ps =>
    refine (succeeds_map testing_node).trans ?_
    simp [Json.isSchema]
  | _ => exact iff_of_false (not_succeeds_error _) (by simp [Json.isSchema])

variable {o : Options} {ms : Members}

theorem testing_format {v : Json} :
    Succeeds ((testing p q).format location o v) ↔
      (∃ name, v = .string name ∧ o.KnowsFormat name) ∧
        ∀ name, v = .string name → ∀ s, o.formats.lookup name = some (.schema s) →
          q (.format name) := by
  cases v with
  | string name =>
    rw [format]
    split
    · next s hs =>
      refine (succeeds_map testing_target).trans ?_
      simp [Options.KnowsFormat, hs]
    · next hs =>
      refine (succeeds_map readFormat_succeeds).trans ?_
      have hnone : ∀ s, o.formats.lookup name ≠ some (.schema s) := hs
      simp [Options.KnowsFormat, hnone]
  | _ => exact iff_of_false (not_succeeds_error _) (by simp)

/-- A keyword can be compiled if its value has the shape that it demands, and the schemas in the
value and the target that it names can be compiled. `additionalProperties` looks at the patterns of
the object as well. -/
theorem testing_keyword {k : Keyword} {v : Json} :
    Succeeds ((testing p q).keyword location ms k v) ↔
      (k.HasShape ms v ∧ (k = .additionalProperties → v ≠ .bool true →
        ∀ text ∈ Declared.patternsOf ms, IsPattern text)) ∧
        (∀ x ∈ k.schemas v, p x) ∧
          ∀ text, k = .reference → v = .string text → q (.reference text) := by
  have hrule (hk : k ∉ Keyword.nested) :
      Succeeds ((testing p q).read (k.rule? location ms v)) ↔ k.HasShape ms v :=
    Keyword.rule?_succeeds hk
  cases k with
  | dependencies =>
    cases v with
    | object entries =>
      refine (succeeds_map testing_dependencies).trans ?_
      simp [Keyword.HasShape]
    | _ => exact iff_of_false (not_succeeds_error _) (by simp [Keyword.HasShape])
  | additionalProperties =>
    have hread : Succeeds ((testing p q).read (Declared.read location ms)) ↔ _ :=
      Declared.read_succeeds
    cases v with
    | bool b =>
      cases b with
      | true =>
        exact iff_of_true (succeeds_pure _)
          (by simp [Keyword.HasShape, Keyword.schemas, Json.isSchema])
      | false =>
        refine (succeeds_map hread).trans ?_
        simp [Keyword.HasShape, Keyword.schemas, Json.isSchema]
    | object ps =>
      refine (succeeds_bind hread fun d => succeeds_map testing_node).trans ?_
      simp [Keyword.HasShape, Keyword.schemas, Json.isSchema]
    | _ => exact iff_of_false (not_succeeds_error _) (by simp [Keyword.HasShape, Json.isSchema])
  | reference =>
    cases v with
    | string text =>
      refine (succeeds_map testing_target).trans ?_
      simp [Keyword.HasShape, Keyword.schemas]
    | _ => exact iff_of_false (not_succeeds_error _) (by simp [Keyword.HasShape])
  | not =>
    refine (succeeds_map testing_node).trans ?_
    simp [Keyword.HasShape, Keyword.schemas]
  | items =>
    cases v with
    | array xs =>
      exact iff_of_true (succeeds_pure _) (by simp [Keyword.HasShape, Keyword.schemas])
    | _ =>
      refine (succeeds_map testing_node).trans ?_
      simp [Keyword.HasShape, Keyword.schemas]
  | patternProperties =>
    cases v with
    | object entries =>
      cases entries with
      | nil =>
        exact iff_of_true (succeeds_pure _) (by simp [Keyword.HasShape, Keyword.schemas])
      | cons e entries =>
        refine (succeeds_map testing_patterns).trans ?_
        rw [Keyword.schemas, List.forall_mem_map]
        simp only [Keyword.HasShape, Json.object.injEq, exists_eq_left', reduceCtorEq,
          false_implies, and_true, forall_const]
    | _ => exact iff_of_false (not_succeeds_error _) (by simp [Keyword.HasShape])
  | allOf =>
    cases v with
    | array xs =>
      refine (succeeds_map (testing_items 0)).trans ?_
      simp [Keyword.HasShape, Keyword.schemas]
    | _ => exact iff_of_false (not_succeeds_error _) (by simp [Keyword.HasShape])
  | anyOf | oneOf =>
    cases v with
    | array xs =>
      cases xs with
      | nil =>
        exact iff_of_true (succeeds_pure _) (by simp [Keyword.HasShape, Keyword.schemas])
      | cons x xs =>
        refine (succeeds_map (testing_items 0)).trans ?_
        simp [Keyword.HasShape, Keyword.schemas]
    | _ => exact iff_of_false (not_succeeds_error _) (by simp [Keyword.HasShape])
  | _ =>
    refine (succeeds_map (hrule (by decide))).trans ?_
    simp [Keyword.schemas]

theorem testing_parts :
    Succeeds ((testing p q).parts location ms) ↔
      (tuple? ms = none → ∀ v, ms.lookup "properties" = some v → ∃ ps, v = .object ps) ∧
        (∀ xs, tuple? ms = some xs → ∀ x ∈ xs, p x) ∧
          (tuple? ms = none → ∀ ps, ms.lookup "properties" = some (.object ps) →
            ∀ e ∈ ps, p e.2) := by
  rw [parts]
  cases tuple? ms with
  | some xs =>
    refine (succeeds_map (testing_items 0)).trans ?_
    simp
  | none =>
    cases ms.lookup "properties" with
    | none => exact iff_of_true (succeeds_pure _) (by simp)
    | some v =>
      cases v with
      | object ps =>
        refine (succeeds_map testing_members).trans ?_
        simp
      | _ => exact iff_of_false (not_succeeds_error _) (by simp)

/-- What the steps of a schema object need. -/
theorem testing_steps :
    Succeeds ((testing p q).object location o ms) ↔
      Succeeds (checkKeywords o location ms) ∧
      ((tuple? ms = none → ∀ v, ms.lookup "type" = some v → v.IsType) ∧
        ∀ v, ms.lookup "required" = some v → v.IsRequired) ∧
      (∀ xs, tuple? ms = some xs → ∀ v, ms.lookup "additionalItems" = some v →
        v.isSchema = true ∧ ∀ ps, v = .object ps → p (.object ps)) ∧
      (∀ v, ms.lookup "format" = some v → (∃ name, v = .string name ∧ o.KnowsFormat name) ∧
        ∀ name, v = .string name → ∀ s, o.formats.lookup name = some (.schema s) →
          q (.format name)) ∧
      (∀ k ∈ Keyword.inOrder, o.keywords.lookup k.name = none → ∀ v, ms.lookup k.name = some v →
        Succeeds ((testing p q).keyword location ms k v)) ∧
      ((tuple? ms = none → ∀ v, ms.lookup "properties" = some v → ∃ ps, v = .object ps) ∧
        (∀ xs, tuple? ms = some xs → ∀ x ∈ xs, p x) ∧
          (tuple? ms = none → ∀ ps, ms.lookup "properties" = some (.object ps) →
            ∀ e ∈ ps, p e.2)) ∧
      Succeeds (customChecks o location ms ms) := by
  refine succeeds_bind Iff.rfl fun _ => ?_
  refine succeeds_bind readHeading_succeeds fun _ => ?_
  refine succeeds_bind ?_ fun _ => ?_
  · cases tuple? ms with
    | none => exact iff_of_true (succeeds_pure _) (by simp)
    | some xs =>
      cases ms.lookup "additionalItems" with
      | none => exact iff_of_true (succeeds_pure _) (by simp)
      | some v =>
        refine testing_additionalItems.trans ?_
        simp
  refine succeeds_bind ?_ fun _ => ?_
  · cases ms.lookup "format" with
    | none => exact iff_of_true (succeeds_pure _) (by simp)
    | some v =>
      refine testing_format.trans ?_
      simp only [Option.some.injEq, forall_eq']
  refine succeeds_bind (succeeds_mapM fun k _ => ?_) fun _ => ?_
  · cases o.keywords.lookup k.name with
    | some rule => exact iff_of_true (succeeds_pure _) (by simp)
    | none =>
      cases ms.lookup k.name with
      | none => exact iff_of_true (succeeds_pure _) (by simp)
      | some v => simp only [Option.some.injEq, forall_eq', forall_const]
  exact succeeds_bind testing_parts fun _ => succeeds_map Iff.rfl

/-- What a schema object that can be compiled holds and names can be compiled. -/
theorem testing_below (h : Succeeds ((testing p q).object location o ms)) :
    (∀ x, ms.Position o x → p x) ∧ ∀ k, ms.Names o k → q k := by
  obtain ⟨-, -, hextra, hformat, hkeyword, ⟨-, htuple, hmembers⟩, -⟩ := testing_steps.1 h
  constructor
  · intro x hx
    cases hx with
    | @keyword k _ _ hk hv hx =>
      exact (testing_keyword.1 (hkeyword k k.mem_inOrder hk _ hv)).2.1 x hx
    | tuple ht hx => exact htuple _ ht x hx
    | additionalItems ht hl => exact (hextra _ ht _ hl).2 _ rfl
    | property ht hl he => exact hmembers ht _ hl _ he
  · intro k hk
    cases hk with
    | format hl hs => exact (hformat _ hl).2 _ rfl _ hs
    | reference hk hl =>
      exact (testing_keyword.1 (hkeyword .reference (Keyword.mem_inOrder _) hk _ hl)).2.2 _ rfl rfl

/-- **What makes a schema object compile**: it is well-formed for itself, and what it holds and
names can be compiled. -/
theorem testing_object (ho : o.keywords = []) :
    Succeeds ((testing p q).object location o ms) ↔
      ms.WellFormed o ∧ (∀ x, ms.Position o x → p x) ∧ ∀ k, ms.Names o k → q k := by
  have hreg (name : String) : o.keywords.lookup name = none := by rw [ho, List.lookup_nil]
  constructor
  · intro h
    refine ⟨?_, testing_below h⟩
    obtain ⟨hknown, ⟨htype, hrequired⟩, hextra, hformat, hkeyword, ⟨hprops, -⟩, -⟩ :=
      testing_steps.1 h
    exact {
      known := (checkKeywords_succeeds ho).1 hknown
      type := htype
      required := hrequired
      additionalItems := fun xs ht v hl => (hextra xs ht v hl).1
      format := fun v hl => (hformat v hl).1
      keyword := fun k v hl =>
        (testing_keyword.1 (hkeyword k k.mem_inOrder (hreg _) v hl)).1.1
      properties := hprops }
  · rintro ⟨hw, hp, hq⟩
    have hpatterns : ∀ text ∈ Declared.patternsOf ms, IsPattern text := by
      intro text htext
      obtain ⟨ps, hps, hmem⟩ := Declared.mem_namesIn.1 htext
      obtain ⟨e, he, rfl⟩ := List.mem_map.1 hmem
      obtain ⟨entries, heq, hentries⟩ := hw.keyword .patternProperties _ hps
      cases heq
      exact hentries e he
    refine testing_steps.2 ⟨(checkKeywords_succeeds ho).2 hw.known, ⟨hw.type, hw.required⟩, ?_, ?_,
      ?_, ⟨hw.properties, ?_, ?_⟩, customChecks_succeeds ho ms⟩
    · exact fun xs ht v hl =>
        ⟨hw.additionalItems xs ht v hl, fun ps hv => hp _ (.additionalItems ht (hv ▸ hl))⟩
    · exact fun v hl => ⟨hw.format v hl, fun name hv s hs => hq _ (.format (hv ▸ hl) hs)⟩
    · intro k _ hk v hl
      refine testing_keyword.2 ⟨⟨hw.keyword k v hl, fun _ _ => hpatterns⟩,
        fun x hx => hp x (.keyword hk hl hx), ?_⟩
      rintro text rfl rfl
      exact hq _ (.reference hk hl)
    · exact fun xs ht x hx => hp x (.tuple ht hx)
    · exact fun ht ps hl e he => hp e.2 (.property ht hl he)

theorem testing_schema (ho : o.keywords = []) {x : Json} :
    Succeeds ((testing p q).schema location o x) ↔
      x.WellFormed o ∧ (∀ ms : Members, x = .object ms → ∀ y, ms.Position o y → p y) ∧
        ∀ ms : Members, x = .object ms → ∀ k, ms.Names o k → q k := by
  cases x with
  | object ms =>
    refine (testing_object ho).trans ?_
    simp only [Json.WellFormed, Json.object.injEq, forall_eq']
  | bool b => exact iff_of_true (succeeds_pure _) (by simp [Json.WellFormed])
  | _ => exact iff_of_false (not_succeeds_error _) fun h => h.1

end Compiler

end JsonSchema
