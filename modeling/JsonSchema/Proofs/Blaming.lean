import JsonSchema.Proofs.Places
import JsonSchema.Proofs.Pointing
import JsonSchema.Proofs.Reading

/-!
# The keywords that violations blame

A violation blames a keyword, by its place in the schema. A node blames keywords with its heading
and with its checks, and it is placed well if each of these keywords is a member of the schema
object that the place of the node leads to. What such a node finds then leads to a keyword of its
kind.

* `Members.Blamed`: the members of a schema object that a kind of violation blames;
* `Path.Explains`: a place leads to such a member;
* `Node.Blames`, `Node.Placed`: what a node may blame, and that it is there;
* `Node.Finds.explained`: what a node finds leads to a keyword of its kind.
-/

namespace JsonSchema

/-! ## Keywords of kinds -/

/-- The keyword of a kind of violation. Formats, dependencies and registered keywords are more than
a keyword. -/
def Violation.Kind.keyword? : Violation.Kind → Option String
  | required => some "required"
  | type => some "type"
  | additionalItems => some "additionalItems"
  | uniqueItems => some "uniqueItems"
  | enum => some "enum"
  | additionalProperties => some "additionalProperties"
  | reference => some "$ref"
  | not => some "not"
  | pattern => some "pattern"
  | anyOf => some "anyOf"
  | oneOf => some "oneOf"
  | multipleOf => some "multipleOf"
  | maxProperties => some "maxProperties"
  | minProperties => some "minProperties"
  | maxItems => some "maxItems"
  | minItems => some "minItems"
  | maxLength => some "maxLength"
  | minLength => some "minLength"
  | minimum => some "minimum"
  | maximum => some "maximum"
  | format _ | dependencies | custom _ => none

namespace Members

/-- The type that a schema object declares: the one written in it, or that of arrays next to a
tuple. -/
def writtenType (ms : Members) : Option Json :=
  if (tuple? ms).isSome then some (.string "array") else ms.lookup "type"

/-- A kind of violation blames a member of the schema object at a location, by the place of the
member in the object. -/
inductive Blamed (o : Options) (location : Path) (ms : Members) : Violation.Kind → Path → Prop
  | keyword {kind : Violation.Kind} {keyword : String} : kind.keyword? = some keyword →
      (ms.lookup keyword).isSome → Blamed o location ms kind [.name keyword]
  /-- A tuple has the type of arrays, whether there is a `type` or not. -/
  | tuple : (tuple? ms).isSome → Blamed o location ms .type [.name "type"]
  | format {name : String} : ms.lookup "format" = some (.string name) →
      Blamed o location ms (.format name) [.name "format"]
  | dependency {entries : Members} {key : String} :
      ms.lookup "dependencies" = some (.object entries) → (entries.lookup key).isSome →
      Blamed o location ms .dependencies [.name "dependencies", .name key]
  /-- The text is one that the check of the registered keyword gives. -/
  | custom {keyword text : String} {rule : KeywordRule} {v u : Json}
      {check : Json → Option String} : o.keywords.lookup keyword = some rule →
      ms.lookup keyword = some v → rule ms v (location ++ [.name keyword]) = .ok check →
      check u = some text → Blamed o location ms (.custom text) [.name keyword]

end Members

/-- A place leads to a schema object, and in it to a member that the kind of violation blames. The
object declares the given type. -/
def Path.Explains (root : Json) (o : Options) (place : Path) (kind : Violation.Kind)
    (declared : Option Json) : Prop :=
  ∃ (location rest : Path) (ms : Members), place = location ++ rest ∧
    location.LeadsTo root o (.object ms) ∧ ms.Blamed o location kind rest ∧
      declared = ms.writtenType

/-! ## What nodes blame -/

def Check.passesOn : Check → Bool
  | rule .. | dependencies _ | closed .. | reference .. | negation .. | anyOf .. | oneOf .. => false
  | _ => true

/-- The kinds of violations that a check may find by itself, and the places that they blame. -/
inductive Check.Blames : Check → Violation.Kind → Path → Prop
  | rule {r : Rule} {kind : Violation.Kind} {place : Path} : r.Covers kind →
      Blames (.rule r place) kind place
  | dependency {entries : List (String × Dependency)} {name : String} {names : List String}
      {place : Path} : (name, .names names place) ∈ entries →
      Blames (.dependencies entries) .dependencies place
  | closed {declared : Declared} {place : Path} :
      Blames (.closed declared place) .additionalProperties place
  | verdict {c : Check} {kind : Violation.Kind} {place : Path} : c.demand? = some (kind, place) →
      Blames c kind place

/-- The kinds of violations that a node may find by itself, and the places that they blame. -/
inductive Node.Blames (n : Node) : Violation.Kind → Path → Prop
  | type : n.heading.types.isSome → Blames n .type (n.heading.place "type")
  | required : n.heading.required = true ∨ n.heading.requiredNames ≠ [] →
      Blames n .required (n.heading.place "required")
  | check {c : Check} {kind : Violation.Kind} {place : Path} : c ∈ n.checks →
      c.Blames kind place → Blames n kind place

section Placed

variable (root : Json) (o : Options)

def Node.Fits (n : Node) : Prop :=
  ∀ kind place, n.Blames kind place → place.Explains root o kind n.heading.declaredType

/-- What the node blames is there, and what the nodes in it blame. -/
def Node.Placed (n : Node) : Prop := ∀ m : Node, m.Within n → m.Fits root o

/-- What a check blames is there, in the schema object at a location, and what its nodes blame. -/
structure Check.Placed (location : Path) (ms : Members) (c : Check) : Prop where
  blames : ∀ kind place, c.Blames kind place →
    ∃ rest, place = location ++ rest ∧ ms.Blamed o location kind rest
  nodes : ∀ k ∈ c.nodes, k.Placed root o

abbrev Check.AllPlaced (location : Path) (ms : Members) (cs : List Check) : Prop :=
  ∀ c ∈ cs, c.Placed root o location ms

/-- The dependency of a member names others at the place of the member, or it has a node, what this
node blames being there. The members are those of `dependencies` in the object at a location. -/
inductive Dependency.Placed (location : Path) (entries : Members) : Dependency → Prop
  | names {key : String} {names : List String} : (entries.lookup key).isSome →
      Placed location entries (.names names (location ++ [.name "dependencies", .name key]))
  | schema {k : Node} : k.Placed root o → Placed location entries (.schema k)

variable {root o} {n : Node}

/-- **What a well placed node finds leads to a keyword of its kind.** -/
theorem Node.Finds.explained {v : Json} {path : Path} {x : Violation} (hn : n.Placed root o)
    (h : n.Finds v path x) :
    ∃ d, x.details = some d ∧ d.schemaPath.Explains root o x.kind d.declaredType := by
  have hfits := hn n .refl
  cases h with
  | type htype =>
    refine ⟨_, rfl, hfits _ _ (.type ?_)⟩
    unfold Heading.acceptsType at htype
    split at htype
    · cases htype
    · next ts hts => rw [hts]; rfl
  | @missing name hname =>
    refine ⟨_, rfl, hfits _ _ (.required (.inr ?_))⟩
    intro hnil
    cases v <;> simp [Heading.missing, hnil] at hname
  | check hc hx =>
    cases hx with
    | rule hkind => exact ⟨_, rfl, hfits _ _ (.check hc (.rule (Rule.covers_of_fault? hkind)))⟩
    | dependency he => exact ⟨_, rfl, hfits _ _ (.check hc (.dependency he))⟩
    | closed _ _ => exact ⟨_, rfl, hfits _ _ (.check hc .closed)⟩
    | verdict hkind => exact ⟨_, rfl, hfits _ _ (.check hc (.verdict hkind))⟩
    | @absent _ k _ hk _ hrequired =>
      have hwithin : k.Within n := .step hc (List.mem_append_right _ hk) .refl
      exact ⟨_, rfl, hn k hwithin _ _ (.required (.inl hrequired))⟩

end Placed

/-! ## What readers blame -/

section Readers

variable {root : Json} {o : Options} {location : Path} {ms : Members}

/-- What the heading of a schema object says of types and of required members is written there. -/
theorem readHeading_blames {h : Heading} (hr : readHeading location ms = .ok h) :
    h.location = location ∧ h.declaredType = ms.writtenType ∧
      (h.types.isSome → ms.Blamed o location .type [.name "type"]) ∧
        (h.required = true ∨ h.requiredNames ≠ [] →
          ms.Blamed o location .required [.name "required"]) := by
  obtain ⟨⟨types, declared⟩, htype, hr⟩ := Reads.bind_eq_ok hr
  obtain ⟨⟨required, names⟩, hrequired, hr⟩ := Reads.bind_eq_ok hr
  cases hr
  refine ⟨rfl, ?_, ?_, ?_⟩
  · unfold readDeclaredType at htype
    split at htype
    · next xs ht =>
      cases htype
      simp [Members.writtenType, ht]
    · next v ht hl =>
      obtain ⟨ts, -, htype⟩ := Reads.bind_eq_ok htype
      cases htype
      simp [Members.writtenType, ht, hl]
    · next ht hl =>
      cases htype
      simp [Members.writtenType, ht, hl]
  · intro hsome
    unfold readDeclaredType at htype
    split at htype
    · next xs ht => exact .tuple (by rw [ht]; rfl)
    · next v ht hl => exact .keyword rfl (by rw [hl]; rfl)
    · cases htype
      cases hsome
  · intro h
    cases hl : ms.lookup "required" with
    | none =>
      rw [hl] at hrequired
      cases hrequired
      simp at h
    | some v => exact .keyword rfl (by rw [hl]; rfl)

theorem Keyword.rule?_covers {k : Keyword} {v : Json} {r : Rule} {kind : Violation.Kind}
    (h : k.rule? location ms v = .ok (some r)) (hkind : r.Covers kind) :
    kind.keyword? = some k.name := by
  cases k with
  | uniqueItems =>
    match v, h with
    | .bool true, h =>
      cases h
      cases hkind
      rfl
    | .bool false, h | .null, h | .number _, h | .string _, h | .array _, h | .object _, h =>
      cases h
  | enum =>
    match v, h with
    | .array (x :: xs), h =>
      cases h
      cases hkind
      rfl
    | .array [], h | .null, h | .bool _, h | .number _, h | .string _, h | .object _, h => cases h
  | pattern =>
    match v, h with
    | .string text, h =>
      obtain ⟨p, -, h⟩ := Reads.bind_eq_ok h
      cases h
      cases hkind
      rfl
    | .null, h | .bool _, h | .number _, h | .array _, h | .object _, h => cases h
  | multipleOf =>
    match v, h with
    | .number n, h =>
      rw [rule?] at h
      split at h
      · cases h
        cases hkind
        rfl
      · cases h
    | .null, h | .bool _, h | .string _, h | .array _, h | .object _, h => cases h
  | maxProperties | minProperties | maxItems | minItems | maxLength | minLength | minimum
    | maximum =>
    obtain ⟨a, -, h⟩ := Reads.bind_eq_ok h
    cases h
    cases hkind
    rfl
  | _ => cases h

theorem readFormat_covers {name : String} {r : Rule} {kind : Violation.Kind}
    (h : readFormat o location name = .ok r) (hkind : r.Covers kind) : kind = .format name := by
  rw [readFormat] at h
  split at h
  · cases h
    exact hkind
  · obtain ⟨p, -, h⟩ := Reads.bind_eq_ok h
    cases h
    exact hkind
  · split at h
    · cases h
      exact hkind
    · cases h

end Readers

/-! ## Checks and nodes that are placed well -/

section Parts

variable {root : Json} {o : Options} {location : Path} {ms : Members} {c : Check}

theorem Check.Placed.of_passesOn (hc : c.passesOn = true)
    (hnodes : ∀ k ∈ c.nodes, k.Placed root o) : c.Placed root o location ms := by
  refine ⟨fun kind place h => ?_, hnodes⟩
  cases h with
  | verdict h => cases c <;> simp [passesOn, demand?] at hc h
  | _ => cases hc

theorem Check.Placed.of_rule {r : Rule} {keyword : String} (hl : (ms.lookup keyword).isSome)
    (hr : ∀ kind, r.Covers kind → kind.keyword? = some keyword) :
    (Check.rule r (location ++ [.name keyword])).Placed root o location ms := by
  refine ⟨fun kind place h => ?_, List.forall_mem_nil _⟩
  cases h with
  | rule hkind => exact ⟨_, rfl, .keyword (hr kind hkind) hl⟩
  | verdict h => cases h

theorem Check.Placed.of_verdict {keyword : String} {kind : Violation.Kind}
    (hl : (ms.lookup keyword).isSome) (hc : c.demand? = some (kind, location ++ [.name keyword]))
    (hkind : kind.keyword? = some keyword) (hnodes : ∀ k ∈ c.nodes, k.Placed root o) :
    c.Placed root o location ms := by
  refine ⟨fun kind' place h => ?_, hnodes⟩
  cases h with
  | verdict h =>
    obtain ⟨rfl, rfl⟩ : kind = kind' ∧ location ++ [.name keyword] = place := by simpa [hc] using h
    exact ⟨_, rfl, .keyword hkind hl⟩
  | _ => cases hc

theorem Check.Placed.closed {declared : Declared}
    (hl : (ms.lookup "additionalProperties").isSome) :
    (Check.closed declared (location ++ [.name "additionalProperties"])).Placed root o location
      ms := by
  refine ⟨fun kind place h => ?_, List.forall_mem_nil _⟩
  cases h with
  | closed => exact ⟨_, rfl, .keyword rfl hl⟩
  | verdict h => cases h

theorem Check.Placed.dependencies {members : Members} {entries : List (String × Dependency)}
    (hl : ms.lookup "dependencies" = some (.object members))
    (hentries : ∀ e ∈ entries, e.2.Placed root o location members) :
    (Check.dependencies entries).Placed root o location ms := by
  constructor
  · intro kind place h
    cases h with
    | dependency he =>
      cases hentries _ he with
      | names hkey => exact ⟨_, rfl, .dependency hl hkey⟩
    | verdict h => cases h
  · intro k hk
    simp only [Check.nodes, Check.nodesHere, Check.nodesBelow, List.append_nil,
      List.mem_filterMap] at hk
    obtain ⟨⟨name, d⟩, he, hk⟩ := hk
    cases hentries _ he with
    | names => cases hk
    | schema hplaced =>
      cases hk
      exact hplaced

theorem customChecks_placed (hd : (Json.object ms).distinct) {rest : Members} (hrest : rest ⊆ ms)
    {cs : List Check} (h : customChecks o location ms rest = .ok cs) :
    Check.AllPlaced root o location ms cs := by
  induction rest generalizing cs with
  | nil =>
    cases h
    exact List.forall_mem_nil _
  | cons m rest ih =>
    obtain ⟨keyword, v⟩ := m
    obtain ⟨hmem, hrest⟩ := List.cons_subset.1 hrest
    rw [customChecks] at h
    cases hrule : o.keywords.lookup keyword with
    | none =>
      rw [hrule] at h
      exact ih hrest h
    | some rule =>
      rw [hrule] at h
      obtain ⟨check, hcheck, h⟩ := Reads.bind_eq_ok h
      obtain ⟨others, hothers, h⟩ := Reads.bind_eq_ok h
      cases h
      refine List.forall_mem_cons.2 ⟨⟨fun kind place hblames => ?_, List.forall_mem_nil _⟩,
        ih hrest hothers⟩
      have hl : ms.lookup keyword = some v :=
        lookup_eq_some_of_mem (Json.distinct_object.1 hd).1 hmem
      cases hblames with
      | rule hkind =>
        obtain ⟨u, text, htext, rfl⟩ := hkind
        exact ⟨_, rfl, .custom hrule hl hcheck htext⟩
      | verdict hnone => cases hnone

/-- **A node is placed well** if its location leads to the schema object of its heading, and its
checks are placed well there. -/
theorem Node.placed_mk {h : Heading} {head tail : List Check}
    (hplace : location.LeadsTo root o (.object ms)) (hr : readHeading location ms = .ok h)
    (hchecks : Check.AllPlaced root o location ms (head ++ tail)) :
    (mk h head tail).Placed root o := by
  obtain ⟨hlocation, hdeclared, htype, hrequired⟩ := readHeading_blames hr
  intro m hm
  cases hm with
  | step hc hk hm => exact (hchecks _ hc).nodes _ hk m hm
  | refl =>
    intro kind place hblames
    cases hblames with
    | type hsome =>
      refine ⟨location, _, ms, ?_, hplace, htype hsome, hdeclared⟩
      rw [← hlocation]
      rfl
    | required hsome =>
      refine ⟨location, _, ms, ?_, hplace, hrequired hsome, hdeclared⟩
      rw [← hlocation]
      rfl
    | check hc hblames =>
      obtain ⟨rest, hrest, hblamed⟩ := (hchecks _ hc).blames _ _ hblames
      exact ⟨location, rest, ms, hrest, hplace, hblamed, hdeclared⟩

theorem Node.placed_trivial : (Node.trivial location).Placed root o := by
  intro m hm
  cases hm with
  | step hc _ _ => cases hc
  | refl =>
    intro kind place hblames
    cases hblames with
    | type h => cases h
    | required h => simp [trivial, heading] at h
    | check hc _ => cases hc

end Parts

end JsonSchema
