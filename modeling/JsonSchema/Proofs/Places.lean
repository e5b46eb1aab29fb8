import JsonSchema.Proofs.DistinctNames
import JsonSchema.Proofs.Documents
import Mathlib.Data.List.Induction

/-!
# Places of schemas

A place is read from the root of a document, segment by segment. A member of a schema object leads
to the schema, or to the schemas, that it holds, and a member that names a target leads on to what
the target denotes. So a place goes through references and formats that are schemas, and below
`properties` and other keywords that hold schemas by name every name is the name of a schema.

* `Stand`, `Stand.next?`: what a place has come to, and where a segment leads from there;
* `Path.stand?`, `Path.LeadsTo`: what a place leads to;
* `Path.LeadsTo.child`, `Path.LeadsTo.target`: one segment more;
* `Path.LeadsTo.held`: a place leads to a value of the documents.
-/

namespace JsonSchema

/-! ## Standing on a schema -/

/-- What a place has come to. -/
inductive Stand where
  | schema (x : Json)
  /-- The value of a keyword that holds schemas, by name or by index. -/
  | schemas (v : Json)

/-- The target that a member of a schema object names with its text. -/
def Target.ofMember? (keyword : String) : Json → Option Target
  | .string text =>
    if keyword = "$ref" then some (.reference text)
    else if keyword = "format" then some (.format text)
    else none
  | _ => none

namespace Stand

def value : Stand → Json
  | schema x => x
  | schemas v => v

def single : List String := ["not", "additionalProperties", "additionalItems"]

def several : List String :=
  ["dependencies", "properties", "patternProperties", "allOf", "anyOf", "oneOf"]

/-- What `items` holds: one schema, or a schema for each position. -/
def ofItems : Json → Stand
  | .array xs => schemas (.array xs)
  | v => schema v

/-- What a member of a schema object leads to. -/
def ofMember? (root : Json) (o : Options) (keyword : String) (v : Json) : Option Stand :=
  if keyword ∈ single then some (schema v)
  else if keyword ∈ several then some (schemas v)
  else if keyword = "items" then some (ofItems v)
  else (Target.ofMember? keyword v).bind fun k => (k.schema? root o).map schema

def next? (root : Json) (o : Options) : Stand → Segment → Option Stand
  | schema (.object ms), .name keyword => (ms.lookup keyword).bind (ofMember? root o keyword)
  | schema _, _ => none
  | schemas v, seg => (v.child? seg).map schema

end Stand

namespace Path

variable (root : Json) (o : Options)

/-- What a place has come to, read from the root of a document. -/
def stand? (p : Path) : Option Stand := p.foldlM (Stand.next? root o) (.schema root)

/-- A place leads to a schema. -/
def LeadsTo (p : Path) (x : Json) : Prop := p.stand? root o = some (.schema x)

variable {root o} {p : Path}

theorem LeadsTo.start : LeadsTo root o [] root := rfl

theorem stand?_snoc (p : Path) (seg : Segment) :
    stand? root o (p ++ [seg]) = (p.stand? root o).bind fun st => st.next? root o seg := by
  rw [stand?, List.foldlM_append, ← stand?]
  cases p.stand? root o with
  | none => rfl
  | some st => simp

/-! ## One segment more -/

/-- A member of the schema object leads to what it holds or names. -/
theorem LeadsTo.stand?_member {ms : Members} (h : p.LeadsTo root o (.object ms)) {keyword : String}
    {v : Json} (hl : ms.lookup keyword = some v) :
    stand? root o (p ++ [.name keyword]) = Stand.ofMember? root o keyword v := by
  rw [stand?_snoc, h]
  simp [Stand.next?, hl]

theorem LeadsTo.single {ms : Members} (h : p.LeadsTo root o (.object ms)) {keyword : String}
    {v : Json} (hl : ms.lookup keyword = some v) (hk : keyword ∈ Stand.single) :
    LeadsTo root o (p ++ [.name keyword]) v := by
  rw [LeadsTo, h.stand?_member hl, Stand.ofMember?, if_pos hk]

theorem LeadsTo.items {ms : Members} (h : p.LeadsTo root o (.object ms)) {v : Json}
    (hl : ms.lookup "items" = some v) (hv : ∀ xs, v ≠ .array xs) :
    LeadsTo root o (p ++ [.name "items"]) v := by
  rw [LeadsTo, h.stand?_member hl]
  cases v with
  | array xs => exact absurd rfl (hv xs)
  | _ => rfl

theorem LeadsTo.stand?_tuple {ms : Members} (h : p.LeadsTo root o (.object ms)) {xs : List Json}
    (hl : ms.lookup "items" = some (.array xs)) :
    stand? root o (p ++ [.name "items"]) = some (.schemas (.array xs)) := by
  rw [h.stand?_member hl]
  rfl

theorem LeadsTo.stand?_several {ms : Members} (h : p.LeadsTo root o (.object ms))
    {keyword : String} {v : Json} (hl : ms.lookup keyword = some v)
    (hk : keyword ∈ Stand.several) :
    stand? root o (p ++ [.name keyword]) = some (.schemas v) := by
  have hsingle : ∀ k ∈ Stand.several, k ∉ Stand.single := by decide
  rw [h.stand?_member hl, Stand.ofMember?, if_neg (hsingle keyword hk), if_pos hk]

/-- From the schemas that a keyword holds, a segment leads to the one that it selects. -/
theorem leadsTo_of_schemas {v x : Json} (h : p.stand? root o = some (.schemas v)) {seg : Segment}
    (hx : v.child? seg = some x) : LeadsTo root o (p ++ [seg]) x := by
  rw [LeadsTo, stand?_snoc, h]
  simp [Stand.next?, hx]

theorem leadsTo_of_mem {ms : Members} (h : p.stand? root o = some (.schemas (.object ms)))
    (hd : (Json.object ms).distinct) {e : String × Json} (he : e ∈ ms) :
    LeadsTo root o (p ++ [.name e.1]) e.2 :=
  leadsTo_of_schemas h (lookup_eq_some_of_mem (Json.distinct_object.1 hd).1 he)

/-- The target that the schema object names leads to the schema that it denotes. -/
theorem LeadsTo.target {ms : Members} (h : p.LeadsTo root o (.object ms)) {keyword text : String}
    {k : Target} {x : Json} (hl : ms.lookup keyword = some (.string text))
    (hk : Target.ofMember? keyword (.string text) = some k) (hx : k.schema? root o = some x) :
    LeadsTo root o (p ++ [.name keyword]) x := by
  have hkeyword : keyword = "$ref" ∨ keyword = "format" := by
    by_contra hn
    rw [not_or] at hn
    simp [Target.ofMember?, hn] at hk
  rw [LeadsTo, h.stand?_member hl]
  rcases hkeyword with rfl | rfl
  · cases hk
    simp [Stand.ofMember?, Stand.single, Stand.several, Target.ofMember?, hx]
  · cases hk
    simp [Stand.ofMember?, Stand.single, Stand.several, Target.ofMember?, hx]

end Path

/-! ## Values of the documents -/

section Held

variable {root : Json} {o : Options}

theorem Json.child?_inside {v x : Json} {seg : Segment} (h : v.child? seg = some x) :
    x.Inside v := by
  cases v with
  | object ms =>
    cases seg with
    | name s => exact inside_of_lookup h
    | index n => cases h
  | array xs =>
    cases seg with
    | name s => cases h
    | index n => exact .part (List.mem_of_getElem? h) .refl
  | _ => cases h

theorem Stand.held_ofMember? {keyword : String} {v : Json} {st : Stand} (hv : Held root o v)
    (h : ofMember? root o keyword v = some st) : Held root o st.value := by
  unfold ofMember? at h
  split at h
  · cases h
    exact hv
  split at h
  · cases h
    exact hv
  split at h
  · cases h
    cases v <;> exact hv
  · obtain ⟨k, -, h⟩ := Option.bind_eq_some_iff.1 h
    obtain ⟨x, hx, rfl⟩ := Option.map_eq_some_iff.1 h
    exact held_of_schema? hx

theorem Stand.held_next? {st st' : Stand} {seg : Segment} (hst : Held root o st.value)
    (h : st.next? root o seg = some st') : Held root o st'.value := by
  unfold next? at h
  split at h
  · obtain ⟨v, hl, h⟩ := Option.bind_eq_some_iff.1 h
    exact held_ofMember? (hst.inside (Json.inside_of_lookup hl)) h
  · cases h
  · obtain ⟨x, hx, rfl⟩ := Option.map_eq_some_iff.1 h
    exact hst.inside (Json.child?_inside hx)

/-- **A place leads to a value of the documents.** -/
theorem Path.held_stand? {p : Path} {st : Stand} (h : p.stand? root o = some st) :
    Held root o st.value := by
  induction p using List.reverseRecOn generalizing st with
  | nil =>
    cases h
    exact ⟨root, List.mem_cons_self, .refl⟩
  | append_singleton p seg ih =>
    rw [stand?_snoc] at h
    obtain ⟨st', hst', h⟩ := Option.bind_eq_some_iff.1 h
    exact Stand.held_next? (ih hst') h

theorem Path.LeadsTo.held {p : Path} {x : Json} (h : p.LeadsTo root o x) : Held root o x :=
  Path.held_stand? h

theorem Json.Inside.distinct {x y : Json} (h : x.Inside y) (hy : y.distinct) : x.distinct := by
  induction h with
  | refl => exact hy
  | part hp _ ih => exact ih (distinct_of_mem_parts hy hp)

theorem Held.distinct {x : Json} (hd : ∀ d ∈ Targets.documents root o, d.distinct)
    (h : Held root o x) : x.distinct := by
  obtain ⟨d, hmem, hx⟩ := h
  exact hx.distinct (hd d hmem)

end Held

end JsonSchema
