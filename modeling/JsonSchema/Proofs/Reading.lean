import Mathlib.Data.List.Forall2
import JsonSchema.Node.Compile
import JsonSchema.Proofs.Acceptance
import JsonSchema.Proofs.Multiples

/-!
# What the readers return

The values of keywords without nested schemas, when they can be read, give headings, rules and
declared names that say what the keywords mean.

* `Reads.bind_eq_ok`, `Reads.mapM_eq_ok`: readers one after the other;
* `readHeading_means`: the heading of a schema object;
* `Keyword.rule?_means`: the rule of a keyword;
* `Declared.read_means`: the declared members.
-/

namespace JsonSchema

/-! ## Readers one after the other -/

namespace Reads

variable {α β : Type}

theorem bind_eq_ok {r : Reads α} {f : α → Reads β} {b : β} (h : (r >>= f) = .ok b) :
    ∃ a, r = .ok a ∧ f a = .ok b := by
  cases r with
  | error e => cases h
  | ok a => exact ⟨a, rfl, h⟩

theorem mapM_eq_ok {f : α → Reads β} {xs : List α} {ys : List β} (h : xs.mapM f = .ok ys) :
    List.Forall₂ (fun x y => f x = .ok y) xs ys := by
  induction xs generalizing ys with
  | nil =>
    cases h
    exact .nil
  | cons x xs ih =>
    rw [List.mapM_cons] at h
    obtain ⟨y, hy, h⟩ := bind_eq_ok h
    obtain ⟨rest, hrest, h⟩ := bind_eq_ok h
    cases h
    exact .cons hy (ih hrest)

end Reads

/-! ## Types -/

theorem TypeName.holds_iff (t : TypeName) (v : Json) : t.holds v = true ↔ v.HasType t.name := by
  cases t <;> cases v <;> simp [holds, name, Json.HasType, Number.isInteger_iff_value]

theorem TypeName.name_of_ofName? {s : String} {t : TypeName} (h : ofName? s = some t) :
    t.name = s := by
  have := List.find?_some h
  simpa using this

theorem TypeSet.has_foldl_insert (ts : List TypeName) (s : TypeSet) (t : TypeName) :
    (ts.foldl insert s).has t = true ↔ t ∈ ts ∨ s.has t = true := by
  induction ts generalizing s with
  | nil => simp
  | cons u ts ih =>
    rw [List.foldl_cons, ih]
    simp only [insert, Bool.or_eq_true, beq_iff_eq, List.mem_cons]
    tauto

theorem TypeSet.holds_ofList (ts : List TypeName) (v : Json) :
    (ofList ts).holds v = true ↔ ∃ t ∈ ts, t.holds v = true := by
  simp [holds_iff, ofList, has_foldl_insert, empty]

/-- The value of `type` that stands for a type name, or for all of them. -/
def typeValue (t : Option TypeName) : Json := .string (t.elim "any" TypeName.name)

theorem readTypeName_eq {location : Path} {x : Json} {t : Option TypeName}
    (h : readTypeName location x = .ok t) : x = typeValue t := by
  cases x with
  | string s =>
    rw [readTypeName] at h
    split at h
    · next hs =>
      cases h
      rw [hs]
      rfl
    · split at h
      · next u hu =>
        cases h
        rw [← TypeName.name_of_ofName? hu]
        rfl
      · cases h
  | _ => cases h

theorem admittedBy_typeValue (t : Option TypeName) (v : Json) :
    v.AdmittedBy (typeValue t) ↔ ∀ u, t = some u → u.holds v = true := by
  cases t with
  | none => simp [typeValue, Json.AdmittedBy]
  | some u =>
    have hu : u.name ≠ "any" := by cases u <;> decide
    simp [typeValue, Json.AdmittedBy, hu, TypeName.holds_iff]

theorem admittedBy_typeValues (types : List (Option TypeName)) (v : Json) :
    v.AdmittedBy (.array (types.map typeValue)) ↔
      (types = [] ∨ none ∈ types) ∨ ∃ t, some t ∈ types ∧ t.holds v = true := by
  have hany : Json.string "any" ∈ types.map typeValue ↔ none ∈ types := by
    rw [List.mem_map]
    constructor
    · rintro ⟨_ | t, ht, he⟩
      · exact ht
      · cases t <;> simp [typeValue, TypeName.name] at he
    · intro h
      exact ⟨none, h, rfl⟩
  have hnone : ¬v.HasType "any" := by cases v <;> simp [Json.HasType]
  have htype : (∃ name, Json.string name ∈ types.map typeValue ∧ v.HasType name) ↔
      ∃ t, some t ∈ types ∧ t.holds v = true := by
    constructor
    · rintro ⟨name, hname, hv⟩
      obtain ⟨_ | t, ht, he⟩ := List.mem_map.1 hname <;> cases he
      · exact absurd hv hnone
      · exact ⟨t, ht, t.holds_iff v |>.2 hv⟩
    · rintro ⟨t, ht, hv⟩
      exact ⟨t.name, List.mem_map.2 ⟨some t, ht, rfl⟩, (t.holds_iff v).1 hv⟩
  rw [Json.AdmittedBy, hany, htype, List.map_eq_nil_iff, or_assoc]

theorem readTypeNames_eq {location : Path} {xs : List Json} {types : List (Option TypeName)}
    (h : xs.mapM (readTypeName location) = .ok types) : xs = types.map typeValue := by
  have hall := (Reads.mapM_eq_ok h).imp fun _ _ => readTypeName_eq
  rwa [← List.forall₂_map_right_iff, List.forall₂_eq_eq_eq] at hall

/-- The types that were read accept the values that the text of `type` admits. -/
theorem readType_means {location : Path} {x : Json} {types : Option TypeSet}
    (h : readType location x = .ok types) (v : Json) :
    (∀ ts, types = some ts → ts.holds v = true) ↔ v.AdmittedBy x := by
  have hone : ∀ t, readTypeName location x = .ok t →
      types = t.map (fun t => TypeSet.ofList [t]) →
        ((∀ ts, types = some ts → ts.holds v = true) ↔ v.AdmittedBy x) := by
    rintro t ht rfl
    rw [readTypeName_eq ht, admittedBy_typeValue]
    cases t <;> simp [TypeSet.holds_ofList]
  cases x with
  | array xs =>
    obtain ⟨ts, hts, he⟩ := Reads.bind_eq_ok h
    cases he
    rw [readTypeNames_eq hts, admittedBy_typeValues]
    by_cases hvoid : ts = [] ∨ none ∈ ts
    · simp [hvoid]
    · simp [hvoid, TypeSet.holds_ofList]
  | _ =>
    obtain ⟨t, ht, he⟩ := Reads.bind_eq_ok h
    exact hone t ht (Except.ok.inj he).symm

/-! ## Headings -/

theorem readNames_eq {fault : SchemaError} {xs : List Json} {names : List String}
    (h : readNames fault xs = .ok names) : xs = names.map .string := by
  induction xs generalizing names with
  | nil =>
    cases h
    rfl
  | cons x xs ih =>
    cases x with
    | string s =>
      rw [readNames] at h
      obtain ⟨rest, hrest, h⟩ := Reads.bind_eq_ok h
      cases h
      rw [ih hrest, List.map_cons]
    | _ => cases h

theorem hasAll_names (v : Json) (names : List String) :
    HasAll v (names.map .string) ↔ ∀ name ∈ names, (v.get? name).isSome := by
  simp [HasAll]

/-- What was read from `required` is what it asks of a value and of its members. -/
theorem readRequired_means {location : Path} {x : Option Json} {b : Bool} {names : List String}
    (h : readRequired location x = .ok (b, names)) :
    (b = true ↔ x = some (.bool true)) ∧
      ∀ v, (∀ name ∈ names, (v.get? name).isSome) ↔
        ∀ xs, x = some (.array xs) → HasAll v xs := by
  match x, h with
  | none, h => cases h; simp
  | some (.bool c), h => cases h; simp
  | some (.array xs), h =>
    rw [readRequired] at h
    obtain ⟨ns, hns, h⟩ := Reads.bind_eq_ok h
    cases h
    rw [readNames_eq hns]
    simp [hasAll_names]
  | some .null, h | some (.number _), h | some (.string _), h | some (.object _), h => cases h

theorem tuple?_eq_some {ms : Members} {xs : List Json} :
    tuple? ms = some xs ↔ ms.lookup "items" = some (.array xs) := by
  rw [tuple?]
  split
  · next h => simp [h]
  · next h => simpa using h xs

theorem tuple?_eq_none_of_object {ms members : Members} (h : AdmitsType ms (.object members)) :
    tuple? ms = none := by
  cases ht : tuple? ms with
  | none => rfl
  | some xs =>
    rw [AdmitsType, tuple?_eq_some.1 ht] at h
    obtain ⟨ys, hys⟩ := h
    cases hys

/-- The declared type accepts the values that the schema object admits. -/
theorem readDeclaredType_means {location : Path} {ms : Members} {types : Option TypeSet}
    {declared : Option Json} (h : readDeclaredType location ms = .ok (types, declared)) (v : Json) :
    (∀ ts, types = some ts → ts.holds v = true) ↔ AdmitsType ms v := by
  cases ht : tuple? ms with
  | some xs =>
    have hall : AdmitsType ms v ↔ ∃ ys, v = .array ys := by
      rw [AdmitsType, tuple?_eq_some.1 ht]
    rw [readDeclaredType, ht] at h
    cases h
    rw [hall]
    cases v <;> simp [TypeSet.holds_ofList, TypeName.holds]
  | none =>
    have hall : AdmitsType ms v ↔ ∀ t, ms.lookup "type" = some t → v.AdmittedBy t := by
      rw [AdmitsType]
      split
      · next xs hxs =>
        rw [tuple?_eq_some.2 hxs] at ht
        cases ht
      · rfl
    rw [readDeclaredType, ht] at h
    rw [hall]
    cases hl : ms.lookup "type" with
    | none =>
      rw [hl] at h
      cases h
      simp
    | some x =>
      rw [hl] at h
      obtain ⟨ts, hts, h⟩ := Reads.bind_eq_ok h
      cases h
      simpa using readType_means hts v

theorem Heading.acceptsType_iff (h : Heading) (v : Json) :
    h.acceptsType v = true ↔ ∀ ts, h.types = some ts → ts.holds v = true := by
  rw [acceptsType]
  cases h.types <;> simp

theorem Heading.missing_eq_nil {h : Heading} {v : Json} :
    h.missing v = [] ↔
      ∀ members, v = .object members → ∀ name ∈ h.requiredNames, (v.get? name).isSome := by
  cases v <;> simp [missing, Members.has, Json.get?]

/-- What a heading says of present and of absent values is what the schema object says. -/
structure Heading.Means (h : Heading) (ms : Members) : Prop where
  acceptsType_iff (v : Json) : h.acceptsType v = true ↔ AdmitsType ms v
  missing_iff (v : Json) : h.missing v = [] ↔ HasRequired ms v
  allowsAbsent_iff : h.allowsAbsent = true ↔ AllowsAbsent (.object ms)

theorem readHeading_means {location : Path} {ms : Members} {h : Heading}
    (hr : readHeading location ms = .ok h) : h.Means ms := by
  obtain ⟨⟨types, declared⟩, ht, hr⟩ := Reads.bind_eq_ok hr
  obtain ⟨⟨required, names⟩, hn, hr⟩ := Reads.bind_eq_ok hr
  cases hr
  obtain ⟨hb, hnames⟩ := readRequired_means hn
  constructor
  · intro v
    rw [Heading.acceptsType_iff]
    exact readDeclaredType_means ht v
  · intro v
    rw [Heading.missing_eq_nil, HasRequired]
    constructor
    · intro h xs members hxs hv
      exact (hnames v).1 (h members hv) xs hxs
    · intro h members hv
      exact (hnames v).2 fun xs hxs => h xs members hxs hv
  · rw [Heading.allowsAbsent, AllowsAbsent, ← hb]
    cases required <;> cases ms.lookup "default" <;> simp

/-! ## Patterns and formats -/

theorem Rule.demand_eq_none {holds : Bool} {kind : Violation.Kind} :
    demand holds kind = none ↔ holds = true := by
  cases holds <;> simp [demand]

theorem readPattern_eq {place : Path} {text : String} {p : Pattern}
    (h : readPattern place text = .ok p) : Pattern.parse? text = some p := by
  rw [readPattern] at h
  split at h
  · next q hq =>
    cases h
    exact hq
  · cases h

theorem Declared.any_patterns {texts : List String} {patterns : List Pattern}
    (h : List.Forall₂ (fun text p => Pattern.parse? text = some p) texts patterns)
    (name : String) : (∃ p ∈ patterns, p.accepts name = true) ↔
      ∃ text ∈ texts, ∃ p, Pattern.parse? text = some p ∧ p.accepts name = true := by
  induction h with
  | nil => simp
  | cons hp _ ih => simp [hp, ih]

namespace Declared

/-- The names of an object, if there is one. -/
def namesIn : Option Json → List String
  | some (.object ps) => ps.map Prod.fst
  | _ => []

theorem mem_namesIn {x : Option Json} {name : String} :
    name ∈ namesIn x ↔ ∃ ps, x = some (.object ps) ∧ name ∈ ps.map Prod.fst := by
  unfold namesIn
  split
  · next ps => simp
  · next hx => simpa using fun ps h => absurd h (hx ps)

/-- The names that are declared are those of a tuple, or else those of `properties`. -/
theorem namesOf_eq (ms : Members) :
    namesOf ms = match tuple? ms with
      | some xs => (List.range xs.length).map fun n => String.ofList (natText n)
      | none => namesIn (ms.lookup "properties") := by
  rw [namesOf, tuple?]
  generalize ms.lookup "items" = x, ms.lookup "properties" = y
  cases x with
  | none => rcases y with _ | (_ | _ | _ | _ | _ | _) <;> rfl
  | some v =>
    cases v with
    | array xs => rfl
    | _ => rcases y with _ | (_ | _ | _ | _ | _ | _) <;> rfl

end Declared

/-- Without a tuple, the members that were read as declared are the declared ones. -/
theorem Declared.read_means {location : Path} {ms : Members} {d : Declared}
    (h : read location ms = .ok d) (htuple : tuple? ms = none) (name : String) :
    d.has name = true ↔ IsDeclared ms name := by
  obtain ⟨patterns, hp, h⟩ := Reads.bind_eq_ok h
  cases h
  have hparsed := (Reads.mapM_eq_ok hp).imp fun _ _ => readPattern_eq
  have hnames : name ∈ namesOf ms ↔
      ∃ ps, ms.lookup "properties" = some (.object ps) ∧ name ∈ ps.map Prod.fst := by
    rw [namesOf_eq, htuple]
    exact mem_namesIn
  have hpatterns : (∃ text ∈ patternsOf ms, ∃ p, Pattern.parse? text = some p ∧
      p.accepts name = true) ↔ ∃ ps, ms.lookup "patternProperties" = some (.object ps) ∧
        ∃ e ∈ ps, ∃ p, Pattern.parse? e.1 = some p ∧ p.accepts name = true := by
    constructor
    · rintro ⟨text, htext, p, hp⟩
      obtain ⟨ps, hps, hmem⟩ := mem_namesIn.1 htext
      obtain ⟨e, he, rfl⟩ := List.mem_map.1 hmem
      exact ⟨ps, hps, e, he, p, hp⟩
    · rintro ⟨ps, hps, e, he, p, hp⟩
      exact ⟨e.1, mem_namesIn.2 ⟨ps, hps, List.mem_map_of_mem he⟩, p, hp⟩
  rw [has, Bool.or_eq_true, List.contains_iff_mem, List.any_eq_true, hnames,
    any_patterns hparsed, hpatterns, IsDeclared]

/-- The rule of a format is its test of strings. -/
theorem readFormat_means {o : Options} {location : Path} {name : String} {r : Rule}
    (h : readFormat o location name = .ok r) (v : Json) :
    r.fault? v = none ↔
      ∀ test s, o.formatTest? name = some test → v = .string s → test s = true := by
  have hrule : ∃ test, r = .format name test ∧ o.formatTest? name = some test := by
    rw [readFormat] at h
    split at h
    · next test ht =>
      cases h
      exact ⟨test, rfl, by rw [Options.formatTest?, ht]⟩
    · next text ht =>
      obtain ⟨p, hp, h⟩ := Reads.bind_eq_ok h
      cases h
      exact ⟨p.accepts, rfl, by simp [Options.formatTest?, ht, readPattern_eq hp]⟩
    · next hpredicate hpattern =>
      split at h
      · next test ht =>
        cases h
        refine ⟨test, rfl, ?_⟩
        rw [Options.formatTest?]
        split
        · next t hl => exact absurd hl (hpredicate t)
        · next t hl => exact absurd hl (hpattern t)
        · exact ht
      · cases h
  obtain ⟨test, rfl, ht⟩ := hrule
  cases v <;> simp [Rule.fault?, Rule.demand_eq_none, ht]

/-! ## Rules -/

theorem Rule.below_eq_false {a b : Number} {bound : Bool} :
    below a b bound = false ↔ if bound = true then b.value < a.value else b.value ≤ a.value := by
  rw [← Bool.not_eq_true]
  cases bound
  · simp [below, Number.lt_iff_value]
  · simp [below, Number.le_iff_value]

theorem readSize_eq {location : Path} {keyword : String} {x : Json} {size : Nat}
    (h : readSize location keyword x = .ok size) : ∃ n, x = .number n ∧ n.size? = some size := by
  cases x with
  | number n =>
    rw [readSize] at h
    split at h
    · next m hm =>
      cases h
      exact ⟨n, rfl, hm⟩
    · cases h
  | _ => cases h

theorem readBound_eq {location : Path} {ms : Members} {keyword exclusive : String} {x : Json}
    {n : Number} {b : Bool} (h : readBound location ms keyword exclusive x = .ok (n, b)) :
    x = .number n ∧ (b = true ↔ ms.lookup exclusive = some (.bool true)) := by
  cases x with
  | number m =>
    rw [readBound] at h
    split at h
    · next hm =>
      cases h
      simp [hm]
    · next c hm =>
      cases h
      simp [hm]
    · cases h
  | _ => cases h

/-- **The rule of a keyword finds a fault in the values that the keyword does not admit.** -/
theorem Keyword.rule?_means {k : Keyword} {location : Path} {ms : Members} {x : Json}
    {r : Option Rule} (h : k.rule? location ms x = .ok r) (v : Json) :
    (∀ rule, r = some rule → rule.fault? v = none) ↔ k.Admits .rounded ms x v := by
  cases k with
  | maxProperties | minProperties | maxItems | minItems | maxLength | minLength =>
    obtain ⟨size, hs, he⟩ := Reads.bind_eq_ok h
    obtain ⟨n, rfl, hn⟩ := readSize_eq hs
    cases he
    cases v <;> simp [Rule.fault?, Rule.demand_eq_none, Admits, hn]
  | minimum | maximum =>
    obtain ⟨⟨n, b⟩, hs, he⟩ := Reads.bind_eq_ok h
    obtain ⟨rfl, hb⟩ := readBound_eq hs
    cases he
    cases v <;> simp [Rule.fault?, Rule.demand_eq_none, Rule.below_eq_false, Admits, hb]
  | uniqueItems =>
    match x, h with
    | .bool true, h =>
      cases h
      cases v <;> simp [Rule.fault?, Rule.demand_eq_none, Admits, Json.allDifferent_iff]
    | .bool false, h =>
      cases h
      simp [Admits]
    | .null, h | .number _, h | .string _, h | .array _, h | .object _, h => cases h
  | enum =>
    match x, h with
    | .array [], h =>
      cases h
      simp [Admits]
    | .array (y :: ys), h =>
      cases h
      simp [Rule.fault?, Rule.demand_eq_none, Admits]
    | .null, h | .bool _, h | .number _, h | .string _, h | .object _, h => cases h
  | pattern =>
    match x, h with
    | .string text, h =>
      obtain ⟨p, hp, h⟩ := Reads.bind_eq_ok h
      cases h
      cases v <;> simp [Rule.fault?, Rule.demand_eq_none, Admits, readPattern_eq hp]
    | .null, h | .bool _, h | .number _, h | .array _, h | .object _, h => cases h
  | multipleOf =>
    match x, h with
    | .number n, h =>
      rw [rule?] at h
      split at h
      · next d hd =>
        cases h
        cases v <;> simp [Rule.fault?, Rule.demand_eq_none, Admits, Divisor.divides_iff hd]
      · cases h
    | .null, h | .bool _, h | .string _, h | .array _, h | .object _, h => cases h
  | _ =>
    cases h
    simp [Admits]

/-- Without registered keywords there are no custom checks. -/
theorem customChecks_eq_nil {o : Options} (ho : o.keywords = []) (location : Path)
    (ms rest : Members) : customChecks o location ms rest = .ok [] := by
  induction rest with
  | nil => rfl
  | cons m rest ih =>
    obtain ⟨keyword, x⟩ := m
    rw [customChecks, ho]
    exact ih

end JsonSchema
