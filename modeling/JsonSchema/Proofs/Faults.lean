import JsonSchema.Proofs.DistinctNames
import JsonSchema.Proofs.WellFormed

/-!
# Faults of schema objects

A reader that fails names a fault of the schema object: its place, from the place of the object on,
and a cause that says what is wrong there.

* `Json.Misshapen`: a value that does not have the shape which its keyword demands;
* `Members.Fault`, `Json.Fault`: the faults of a schema, with their places in it;
* `readHeading_fault`, `Declared.read_fault`, `readFormat_fault`, `Keyword.rule?_fault`: what is
  wrong when a reader fails.
-/

namespace JsonSchema

/-! ## Faults -/

/-- The value of a keyword does not have the shape that the keyword demands, as a text. -/
inductive Json.Misshapen (v : Json) : String → String → Prop
  | boolean {keyword : String} :
      keyword ∈ ["uniqueItems", "exclusiveMinimum", "exclusiveMaximum"] →
      (∀ b, v ≠ .bool b) → Misshapen v keyword "a boolean"
  | string {keyword : String} : keyword ∈ ["format", "$ref", "pattern"] →
      (∀ s, v ≠ .string s) → Misshapen v keyword "a string"
  | array {keyword : String} : keyword ∈ ["enum", "allOf", "anyOf", "oneOf"] →
      (∀ xs, v ≠ .array xs) → Misshapen v keyword "an array"
  | object {keyword : String} : keyword ∈ ["dependencies", "patternProperties", "properties"] →
      (∀ ms, v ≠ .object ms) → Misshapen v keyword "an object"
  | schema {keyword : String} : keyword ∈ ["additionalProperties", "additionalItems"] →
      v.isSchema = false → Misshapen v keyword "a boolean or an object"
  | number {keyword : String} : keyword ∈ ["minimum", "maximum"] →
      (∀ n, v ≠ .number n) → Misshapen v keyword "a number"
  | positive : (∀ n : Number, v = .number n → n.value ≤ 0) →
      Misshapen v "multipleOf" "a positive number"
  | size {keyword : String} :
      keyword ∈ ["maxProperties", "minProperties", "maxItems", "minItems", "maxLength",
        "minLength"] →
      ¬v.IsSize → Misshapen v keyword "a non-negative integer"
  | type : (∀ s, v ≠ .string s) → (∀ names, v = .array names → ¬AreStrings names) →
      Misshapen v "type" "a string or an array of strings"
  | required : (∀ b, v ≠ .bool b) → (∀ names, v ≠ .array names) →
      Misshapen v "required" "a boolean or an array of strings"
  | requiredNames {names : List Json} : v = .array names → ¬AreStrings names →
      Misshapen v "required" "an array of strings"

/-- A schema object has a fault with a cause, at a place in it. -/
inductive Members.Fault (o : Options) (ms : Members) : Path → SchemaError.Cause → Prop
  | unknownKeyword {keyword : String} : (ms.lookup keyword).isSome →
      Keyword.isKnown keyword = false → o.keywords.lookup keyword = none →
      Fault o ms [.name keyword] (.unknownKeyword keyword)
  | unknownType {v : Json} {s : String} : ms.lookup "type" = some v →
      (v = .string s ∨ ∃ names, v = .array names ∧ .string s ∈ names) →
      ¬(Json.string s).IsTypeName → Fault o ms [.name "type"] (.unknownType s)
  | unrecognizedFormat {name : String} : ms.lookup "format" = some (.string name) →
      o.formats.lookup name = none → Format.builtin? name = none →
      Fault o ms [.name "format"] (.unrecognizedFormat name)
  | pattern {text : String} : ms.lookup "pattern" = some (.string text) → ¬IsPattern text →
      Fault o ms [.name "pattern"] (.invalidRegex text)
  | memberPattern {ps : Members} {text : String} :
      ms.lookup "patternProperties" = some (.object ps) → (ps.lookup text).isSome →
      ¬IsPattern text →
      Fault o ms [.name "patternProperties", .name text] (.invalidRegex text)
  | formatPattern {name text : String} : ms.lookup "format" = some (.string name) →
      o.formats.lookup name = some (.pattern text) → ¬IsPattern (wholeText text) →
      Fault o ms [.name "format"] (.invalidRegex (wholeText text))
  | shape {keyword expected : String} {v : Json} : ms.lookup keyword = some v →
      v.Misshapen keyword expected →
      Fault o ms [.name keyword] (.invalidKeywordValue keyword expected)
  | dependency {entries : Members} {name : String} {names : List Json} :
      ms.lookup "dependencies" = some (.object entries) →
      entries.lookup name = some (.array names) → ¬AreStrings names →
      Fault o ms [.name "dependencies", .name name]
        (.invalidKeywordValue "dependencies" "an array of strings")

/-- A schema is no schema at all, or it is a schema object that has a fault. -/
inductive Json.Fault (o : Options) : Json → Path → SchemaError.Cause → Prop
  | notSchema {x : Json} : x.isSchema = false → Fault o x [] .invalidSchema
  | object {ms : Members} {rest : Path} {cause : SchemaError.Cause} : ms.Fault o rest cause →
      Fault o (.object ms) rest cause

/-- An error names a fault of the schema object at a place. -/
def SchemaError.FaultOf (o : Options) (location : Path) (ms : Members) (e : SchemaError) : Prop :=
  ∃ rest, e.location = location ++ rest ∧ ms.Fault o rest e.cause

/-! ## Readers that fail -/

namespace Reads

variable {α β : Type} {e : SchemaError}

theorem bind_eq_error {r : Reads α} {f : α → Reads β} (h : (r >>= f) = .error e) :
    r = .error e ∨ ∃ a, r = .ok a ∧ f a = .error e := by
  cases r with
  | error e' =>
    cases h
    exact .inl rfl
  | ok a => exact .inr ⟨a, rfl, h⟩

theorem map_eq_error {r : Reads α} {f : α → β} (h : (do return f (← r)) = .error e) :
    r = .error e := by
  rcases bind_eq_error h with h | ⟨a, -, h⟩
  · exact h
  · cases h

theorem mapM_eq_error {f : α → Reads β} {xs : List α} (h : xs.mapM f = .error e) :
    ∃ x ∈ xs, f x = .error e := by
  induction xs with
  | nil => cases h
  | cons x xs ih =>
    rw [List.mapM_cons] at h
    rcases bind_eq_error h with h | ⟨y, -, h⟩
    · exact ⟨x, List.mem_cons_self, h⟩
    · obtain ⟨z, hz, h⟩ := ih (map_eq_error h)
      exact ⟨z, List.mem_cons_of_mem x hz, h⟩

/-- A reader that fails does not succeed. -/
theorem not_of_error {r : Reads α} {P : Prop} (hr : Succeeds r ↔ P) (h : r = .error e) : ¬P := by
  intro hp
  obtain ⟨a, ha⟩ := hr.2 hp
  rw [ha] at h
  cases h

end Reads

open Reads (bind_eq_error map_eq_error mapM_eq_error not_of_error)

section Readers

variable {o : Options} {location : Path} {ms : Members} {e : SchemaError}

theorem faultOf_wrongShape {keyword expected : String} {v : Json}
    (hl : ms.lookup keyword = some v) (hv : v.Misshapen keyword expected) :
    (wrongShape location keyword expected).FaultOf o location ms :=
  ⟨[.name keyword], rfl, .shape hl hv⟩

theorem checkKeywords_error {rest : Members} (h : checkKeywords o location rest = .error e) :
    ∃ keyword ∈ rest.map Prod.fst, Keyword.isKnown keyword = false ∧
      o.keywords.lookup keyword = none ∧
        e = ⟨location ++ [.name keyword], .unknownKeyword keyword⟩ := by
  induction rest with
  | nil => cases h
  | cons m rest ih =>
    obtain ⟨keyword, v⟩ := m
    rw [checkKeywords] at h
    cases hk : Keyword.isKnown keyword || (o.keywords.lookup keyword).isSome with
    | true =>
      rw [hk] at h
      obtain ⟨other, hother, hfault⟩ := ih h
      exact ⟨other, List.mem_cons_of_mem _ hother, hfault⟩
    | false =>
      rw [hk] at h
      cases h
      rw [Bool.or_eq_false_iff] at hk
      exact ⟨keyword, List.mem_cons_self, hk.1, by simpa using hk.2, rfl⟩

theorem checkKeywords_fault (h : checkKeywords o location ms = .error e) :
    e.FaultOf o location ms := by
  obtain ⟨keyword, hmem, hknown, hreg, rfl⟩ := checkKeywords_error h
  have hsome := (Members.lookup_isSome_iff ms keyword).2 hmem
  exact ⟨[.name keyword], rfl, .unknownKeyword hsome hknown hreg⟩

theorem readTypeName_error {x : Json} (h : readTypeName location x = .error e) :
    (∃ s, x = .string s ∧ e = ⟨location ++ [.name "type"], .unknownType s⟩) ∨
      (∀ s, x ≠ .string s) ∧
        e = wrongShape location "type" "a string or an array of strings" := by
  cases x with
  | string s =>
    rw [readTypeName] at h
    split at h
    · cases h
    · split at h
      · cases h
      · cases h
        exact .inl ⟨s, rfl, rfl⟩
  | _ =>
    cases h
    exact .inr ⟨by simp, rfl⟩

theorem readType_fault {v : Json} (hl : ms.lookup "type" = some v)
    (h : readType location v = .error e) : e.FaultOf o location ms := by
  cases v with
  | array names =>
    obtain ⟨x, hx, h⟩ := mapM_eq_error (map_eq_error h)
    have hname : ¬x.IsTypeName := not_of_error readTypeName_succeeds h
    rcases readTypeName_error h with ⟨s, rfl, rfl⟩ | ⟨hs, rfl⟩
    · exact ⟨[.name "type"], rfl, .unknownType hl (.inr ⟨names, rfl, hx⟩) hname⟩
    · refine faultOf_wrongShape hl (.type (by simp) ?_)
      rintro _ ⟨⟩ hstrings
      obtain ⟨s, hxs⟩ := hstrings x hx
      exact hs s hxs
  | _ =>
    have h := map_eq_error h
    have hname := not_of_error readTypeName_succeeds h
    rcases readTypeName_error h with ⟨s, hs, rfl⟩ | ⟨hs, rfl⟩
    · exact ⟨[.name "type"], rfl, .unknownType hl (.inl hs) (hs ▸ hname)⟩
    · exact faultOf_wrongShape hl (.type hs (by simp))

theorem readNames_error {fault : SchemaError} {xs : List Json}
    (h : readNames fault xs = .error e) : e = fault := by
  induction xs with
  | nil => cases h
  | cons x xs ih =>
    cases x with
    | string s => exact ih (map_eq_error h)
    | _ =>
      cases h
      rfl

/-- The names of a dependency are not all strings. -/
theorem readNames_fault {entries : Members} {name : String} {names : List Json}
    (hl : ms.lookup "dependencies" = some (.object entries))
    (hname : entries.lookup name = some (.array names))
    (h : readNames ⟨location ++ [.name "dependencies", .name name],
      .invalidKeywordValue "dependencies" "an array of strings"⟩ names = .error e) :
    e.FaultOf o location ms := by
  have hstrings : ¬AreStrings names := not_of_error readNames_succeeds h
  rw [readNames_error h]
  exact ⟨_, rfl, .dependency hl hname hstrings⟩

theorem readRequired_fault (h : readRequired location (ms.lookup "required") = .error e) :
    e.FaultOf o location ms := by
  cases hl : ms.lookup "required" with
  | none =>
    rw [hl] at h
    cases h
  | some v =>
    rw [hl] at h
    cases v with
    | bool b => cases h
    | array names =>
      have h := map_eq_error h
      rw [readNames_error h]
      exact faultOf_wrongShape hl (.requiredNames rfl (not_of_error readNames_succeeds h))
    | _ =>
      cases h
      exact faultOf_wrongShape hl (.required (by simp) (by simp))

/-- What is wrong when the heading of a schema object cannot be read. -/
theorem readHeading_fault (h : readHeading location ms = .error e) : e.FaultOf o location ms := by
  rcases bind_eq_error h with h | ⟨a, -, h⟩
  · unfold readDeclaredType at h
    split at h
    · cases h
    · next v ht hl => exact readType_fault hl (map_eq_error h)
    · cases h
  · exact readRequired_fault (map_eq_error h)

theorem readPattern_error {place : Path} {text : String} (h : readPattern place text = .error e) :
    ¬IsPattern text ∧ e = ⟨place, .invalidRegex text⟩ := by
  refine ⟨not_of_error readPattern_succeeds h, ?_⟩
  rw [readPattern] at h
  split at h
  · cases h
  · cases h
    rfl

/-- The text of a member of `patternProperties` is not well formed. -/
theorem readPattern_fault {ps : Members} {text : String}
    (hl : ms.lookup "patternProperties" = some (.object ps)) (hmem : text ∈ ps.map Prod.fst)
    (h : readPattern (location ++ [.name "patternProperties", .name text]) text = .error e) :
    e.FaultOf o location ms := by
  obtain ⟨htext, rfl⟩ := readPattern_error h
  have hsome := (Members.lookup_isSome_iff ps text).2 hmem
  exact ⟨_, rfl, .memberPattern hl hsome htext⟩

theorem Declared.read_fault (h : Declared.read location ms = .error e) :
    e.FaultOf o location ms := by
  obtain ⟨text, htext, h⟩ := mapM_eq_error (map_eq_error h)
  obtain ⟨ps, hl, hmem⟩ := mem_namesIn.1 htext
  exact readPattern_fault hl hmem h

/-- What is wrong with a format that is no schema. -/
theorem readFormat_fault {name : String} (hl : ms.lookup "format" = some (.string name))
    (hs : ∀ s, o.formats.lookup name ≠ some (.schema s))
    (h : readFormat o location name = .error e) : e.FaultOf o location ms := by
  rw [readFormat] at h
  split at h
  · cases h
  · next text ht =>
    obtain ⟨htext, rfl⟩ := readPattern_error (map_eq_error h)
    exact ⟨[.name "format"], rfl, .formatPattern hl ht htext⟩
  · next hpredicate hpattern =>
    have hnone : o.formats.lookup name = none := by
      cases hf : o.formats.lookup name with
      | none => rfl
      | some f =>
        cases f with
        | pattern text => exact absurd hf (hpattern text)
        | predicate test => exact absurd hf (hpredicate test)
        | schema s => exact absurd hf (hs s)
    split at h
    · cases h
    · next hbuiltin =>
      cases h
      exact ⟨[.name "format"], rfl, .unrecognizedFormat hl hnone hbuiltin⟩

theorem readSize_error {keyword : String} {v : Json} (h : readSize location keyword v = .error e) :
    ¬v.IsSize ∧ e = wrongShape location keyword "a non-negative integer" := by
  refine ⟨not_of_error readSize_succeeds h, ?_⟩
  cases v with
  | number n =>
    rw [readSize] at h
    cases hn : n.size? with
    | some size => simp [hn] at h
    | none => simpa [hn, eq_comm] using h
  | _ =>
    cases h
    rfl

theorem readBound_fault {keyword exclusive : String} {v : Json}
    (hl : ms.lookup keyword = some v) (hk : keyword ∈ ["minimum", "maximum"])
    (he : exclusive ∈ ["exclusiveMinimum", "exclusiveMaximum"])
    (h : readBound location ms keyword exclusive v = .error e) : e.FaultOf o location ms := by
  cases v with
  | number n =>
    rw [readBound] at h
    split at h
    · cases h
    · cases h
    · next x hx hflag =>
      cases h
      exact faultOf_wrongShape hflag (.boolean (List.mem_cons_of_mem _ he) hx)
  | _ =>
    cases h
    exact faultOf_wrongShape hl (.number hk (by simp))

/-- **What is wrong when a keyword that needs no schema cannot be read.** -/
theorem Keyword.rule?_fault {k : Keyword} {v : Json} (hl : ms.lookup k.name = some v)
    (h : k.rule? location ms v = .error e) : e.FaultOf o location ms := by
  cases k with
  | uniqueItems =>
    cases v with
    | bool b => cases h
    | _ =>
      cases h
      exact faultOf_wrongShape hl (.boolean (by decide) (by simp))
  | enum =>
    cases v with
    | array xs => cases xs <;> cases h
    | _ =>
      cases h
      exact faultOf_wrongShape hl (.array (by decide) (by simp))
  | pattern =>
    cases v with
    | string text =>
      obtain ⟨htext, rfl⟩ := readPattern_error (map_eq_error h)
      exact ⟨[.name "pattern"], rfl, .pattern hl htext⟩
    | _ =>
      cases h
      exact faultOf_wrongShape hl (.string (by decide) (by simp))
  | multipleOf =>
    cases v with
    | number n =>
      rw [rule?] at h
      split at h
      · cases h
      · next hd =>
        cases h
        have hvalue : ¬0 < n.value := by
          rw [← Divisor.ofNumber?_isSome_iff, hd]
          simp
        refine faultOf_wrongShape hl (.positive ?_)
        rintro _ ⟨⟩
        exact not_lt.1 hvalue
    | _ =>
      cases h
      exact faultOf_wrongShape hl (.positive (by simp))
  | maxProperties | minProperties | maxItems | minItems | maxLength | minLength =>
    obtain ⟨hsize, rfl⟩ := readSize_error (map_eq_error h)
    exact faultOf_wrongShape hl (.size (by decide) hsize)
  | minimum | maximum =>
    have h := map_eq_error h
    exact readBound_fault hl (by decide) (by decide) h
  | _ => cases h

end Readers

end JsonSchema
