import JsonSchema.Proofs.Positions

/-!
# The documents of a build

A schema document, the external documents and the formats that are schemas hold all schemas that
compiling reaches. A reference that occurs in them is among the targets with what it denotes.

* `Json.Inside`: a value occurs in another one;
* `resolve?_inside`: what a reference denotes occurs in the documents;
* `Reachable.inside`: so does every position that is reached;
* `Targets.lookup_of_names`: a target that a schema of the documents names is listed with the schema
  that it denotes.
-/

namespace JsonSchema

/-! ## Values in values -/

namespace Json

/-- A value occurs in another one, at any depth. -/
inductive Inside (x : Json) : Json → Prop
  | refl : Inside x x
  | part {y z : Json} : y ∈ z.parts → Inside x y → Inside x z

theorem Inside.trans {x y z : Json} (hxy : x.Inside y) (hyz : y.Inside z) : x.Inside z := by
  induction hyz with
  | refl => exact hxy
  | part hp _ ih => exact .part hp ih

theorem inside_iff {x y : Json} : x.Inside y ↔ x = y ∨ ∃ z ∈ y.parts, x.Inside z := by
  constructor
  · rintro (_ | ⟨hz, h⟩)
    · exact .inl rfl
    · exact .inr ⟨_, hz, h⟩
  · rintro (rfl | ⟨z, hz, h⟩)
    · exact .refl
    · exact .part hz h

theorem inside_object {x : Json} {ms : Members} :
    x.Inside (.object ms) ↔ x = .object ms ∨ ∃ m ∈ ms, x.Inside m.2 := by
  rw [inside_iff]
  simp only [parts, List.mem_map, exists_exists_and_eq_and]

theorem inside_array {x : Json} {xs : List Json} :
    x.Inside (.array xs) ↔ x = .array xs ∨ ∃ y ∈ xs, x.Inside y :=
  inside_iff

theorem inside_string {x : Json} {s : String} : x.Inside (.string s) ↔ x = .string s := by
  rw [inside_iff]
  simp [parts]

theorem inside_number {x : Json} {a : Number} : x.Inside (.number a) ↔ x = .number a := by
  rw [inside_iff]
  simp [parts]

theorem inside_bool {x : Json} {b : Bool} : x.Inside (.bool b) ↔ x = .bool b := by
  rw [inside_iff]
  simp [parts]

theorem inside_of_lookup {ms : Members} {name : String} {x : Json} (h : ms.lookup name = some x) :
    x.Inside (.object ms) :=
  .part (List.mem_map_of_mem (mem_of_lookup h)) .refl

theorem inside_of_get? {v w : Json} {name : String} (h : v.get? name = some w) : w.Inside v := by
  cases v with
  | object ms => exact inside_of_lookup h
  | _ => cases h

theorem inside_of_position {o : Options} {ms : Members} {x : Json} (h : ms.Position o x) :
    x.Inside (.object ms) := by
  obtain ⟨v, hv, rfl | hx⟩ := h.part
  · exact .part hv .refl
  · exact .part hv (.part hx .refl)

/-! ## References in values -/

theorem mem_referencesItems {xs : List Json} {text : String} :
    text ∈ referencesItems xs ↔ ∃ x ∈ xs, text ∈ x.references := by
  induction xs with
  | nil => simp [referencesItems]
  | cons x xs ih => simp [referencesItems, ih]

theorem mem_referencesMembers {ms : Members} {text : String} :
    text ∈ referencesMembers ms ↔
      ("$ref", .string text) ∈ ms ∨ ∃ m ∈ ms, text ∈ m.2.references := by
  induction ms with
  | nil => simp [referencesMembers]
  | cons m ms ih =>
    obtain ⟨name, v⟩ := m
    cases v with
    | string s =>
      by_cases h : name = "$ref"
      · subst h
        simp [referencesMembers, references, ih, or_assoc]
      · simp [referencesMembers, references, ih, h, Ne.symm h]
    | _ => simp [referencesMembers, ih, or_left_comm]

theorem references_of_inside {x y : Json} {text : String} (h : x.Inside y)
    (hx : text ∈ x.references) : text ∈ y.references := by
  induction h with
  | refl => exact hx
  | @part y z hy _ ih =>
    cases z with
    | array xs => exact mem_referencesItems.2 ⟨y, hy, ih⟩
    | object ms =>
      obtain ⟨m, hm, rfl⟩ := List.mem_map.1 hy
      exact mem_referencesMembers.2 (.inr ⟨m, hm, ih⟩)
    | _ => cases hy

/-! ## What references denote -/

theorem select?_inside {v w : Json} {token : List Char} (h : v.select? token = some w) :
    w.Inside v := by
  cases v with
  | object ms => exact inside_of_lookup h
  | array xs =>
    obtain ⟨n, -, hn⟩ := Option.bind_eq_some_iff.1 h
    exact .part (List.mem_of_getElem? hn) .refl
  | _ => cases h

theorem follow?_inside {v w : Json} {tokens : List (List Char)}
    (h : v.follow? tokens = some w) : w.Inside v := by
  induction tokens generalizing v with
  | nil =>
    cases h
    exact .refl
  | cons t ts ih =>
    obtain ⟨u, hu, h⟩ := Option.bind_eq_some_iff.1 h
    exact (ih h).trans (select?_inside hu)

theorem pointerChars?_inside {v w : Json} {cs : List Char} (h : v.pointerChars? cs = some w) :
    w.Inside v := by
  rw [pointerChars?] at h
  split at h
  · cases h
    exact .refl
  · split at h
    · exact follow?_inside h
    · cases h

mutual
theorem findId?_inside {id : String} {v w : Json} (h : v.findId? id = some w) : w.Inside v := by
  cases v with
  | object ms =>
    rw [findId?] at h
    cases hid : hasId ms id with
    | true =>
      rw [hid] at h
      cases h
      exact .refl
    | false =>
      rw [hid] at h
      obtain ⟨m, hm, hw⟩ := findIdMembers?_inside h
      exact .part (List.mem_map_of_mem hm) hw
  | array xs =>
    rw [findId?] at h
    obtain ⟨x, hx, hw⟩ := findIdItems?_inside h
    exact .part hx hw
  | _ => simp [findId?] at h

theorem findIdItems?_inside {id : String} {xs : List Json} {w : Json}
    (h : findIdItems? id xs = some w) : ∃ x ∈ xs, w.Inside x := by
  cases xs with
  | nil => simp [findIdItems?] at h
  | cons x xs =>
    rw [findIdItems?, Option.or_eq_some_iff] at h
    rcases h with h | ⟨-, h⟩
    · exact ⟨x, List.mem_cons_self, findId?_inside h⟩
    · obtain ⟨y, hy, hw⟩ := findIdItems?_inside h
      exact ⟨y, List.mem_cons_of_mem x hy, hw⟩

theorem findIdMembers?_inside {id : String} {ms : Members} {w : Json}
    (h : findIdMembers? id ms = some w) : ∃ m ∈ ms, w.Inside m.2 := by
  cases ms with
  | nil => simp [findIdMembers?] at h
  | cons m ms =>
    obtain ⟨name, v⟩ := m
    rw [findIdMembers?, Option.or_eq_some_iff] at h
    rcases h with h | ⟨-, h⟩
    · exact ⟨(name, v), List.mem_cons_self, findId?_inside h⟩
    · obtain ⟨y, hy, hw⟩ := findIdMembers?_inside h
      exact ⟨y, List.mem_cons_of_mem _ hy, hw⟩
end

end Json

/-- What a reference denotes occurs in the root or in an external document. -/
theorem resolve?_inside {root w : Json} {documents : Documents} {text : String}
    (h : resolve? root documents text = some w) :
    ∃ d ∈ root :: documents.map Prod.snd, w.Inside d := by
  have hdocument {key : String} {d : Json} (hd : documents.lookup key = some d) :
      d ∈ root :: documents.map Prod.snd :=
    List.mem_cons_of_mem _ (List.mem_map_of_mem (mem_of_lookup hd))
  have hexternal {cs : List Char} (h : resolveExternal? documents cs = some w) :
      ∃ d ∈ root :: documents.map Prod.snd, w.Inside d := by
    rw [resolveExternal?] at h
    split at h
    · exact ⟨w, hdocument h, .refl⟩
    · next fragment _ =>
      obtain ⟨d, hd, h⟩ := Option.bind_eq_some_iff.1 h
      cases hp : Pointer.isPointer fragment with
      | true =>
        rw [hp] at h
        exact ⟨d, hdocument hd, Json.pointerChars?_inside h⟩
      | false =>
        rw [hp] at h
        cases h
        exact ⟨_, hdocument hd, .refl⟩
  rw [resolve?] at h
  split at h
  · next v hv =>
    cases h
    exact ⟨root, List.mem_cons_self, Json.findId?_inside hv⟩
  · dsimp only at h
    generalize (percentDecode? _).getD _ = decoded at h
    cases hp : Pointer.isPointer decoded with
    | true =>
      rw [hp] at h
      exact ⟨root, List.mem_cons_self, Json.pointerChars?_inside h⟩
    | false =>
      rw [hp] at h
      exact hexternal h

/-! ## Targets -/

section Targets

variable {root : Json} {o : Options}

/-- A value occurs in one of the documents of a build. -/
def Held (root : Json) (o : Options) (x : Json) : Prop :=
  ∃ d ∈ Targets.documents root o, x.Inside d

theorem Held.inside {x y : Json} (hy : Held root o y) (hx : x.Inside y) : Held root o x := by
  obtain ⟨d, hd, hy⟩ := hy
  exact ⟨d, hd, hx.trans hy⟩

theorem Targets.mem_formatSchemas {name : String} {s : Json}
    (h : o.formats.lookup name = some (.schema s)) : (name, s) ∈ formatSchemas o :=
  List.mem_filterMap.2 ⟨(name, .schema s), mem_of_lookup h, rfl⟩

/-- What a target denotes occurs in the documents. -/
theorem held_of_schema? {k : Target} {x : Json} (h : k.schema? root o = some x) :
    Held root o x := by
  cases k with
  | reference text =>
    obtain ⟨d, hd, hx⟩ := resolve?_inside (Option.filter_eq_some_iff.1 h).1
    exact ⟨d, List.mem_append_left _ hd, hx⟩
  | format name =>
    rw [Target.schema?] at h
    split at h
    · next s hs =>
      cases h
      have hmem := List.mem_map_of_mem (f := Prod.snd) (Targets.mem_formatSchemas hs)
      exact ⟨x, List.mem_append_right _ hmem, .refl⟩
    · cases h

theorem Reachable.held {x : Json} (h : Reachable root o x) : Held root o x := by
  induction h with
  | root => exact ⟨root, List.mem_cons_self, .refl⟩
  | position _ hx ih => exact ih.inside (Json.inside_of_position hx)
  | target _ _ hx => exact held_of_schema? hx

namespace Targets

/-- The list looks a key up as its entries say, if they agree on the key. -/
theorem lookup_eq_of_mem_iff {L : Targets} {k : Target} {y : Option Json}
    (h : ∀ x, (k, x) ∈ L ↔ y = some x) : L.lookup k = y := by
  cases hl : L.lookup k with
  | some x => exact ((h x).1 (mem_of_lookup hl)).symm
  | none =>
    cases y with
    | none => rfl
    | some x => simpa using List.lookup_eq_none_iff.1 hl _ ((h x).2 rfl)

/-- A reference in the documents is listed with the schema that it denotes. -/
theorem lookup_reference {text : String} (h : text ∈ (documents root o).flatMap Json.references) :
    (of root o).lookup (.reference text) = (Target.reference text).schema? root o := by
  refine lookup_eq_of_mem_iff fun x => ?_
  simp only [of, List.mem_append, List.mem_filterMap, List.mem_map, ofReference?, Target.schema?,
    Option.map_eq_some_iff, Prod.mk.injEq, Target.reference.injEq, reduceCtorEq, false_and,
    and_false, exists_false, or_false]
  constructor
  · rintro ⟨t, -, y, hy, rfl, rfl⟩
    exact hy
  · intro hx
    exact ⟨text, h, x, hx, rfl, rfl⟩

/-- The formats are listed in their order, so that the first one of a name is found. -/
theorem lookup_formatSchemas {name : String} {s : Json}
    (h : o.formats.lookup name = some (.schema s)) :
    ((formatSchemas o).map fun f => (Target.format f.1, f.2)).lookup (.format name) = some s := by
  rw [formatSchemas]
  generalize o.formats = entries at h
  induction entries with
  | nil => cases h
  | cons e entries ih =>
    obtain ⟨key, f⟩ := e
    rw [List.lookup_cons] at h
    by_cases hkey : name = key
    · subst hkey
      rw [beq_self_eq_true] at h
      cases h
      simp
    · have hne : (name == key) = false := beq_eq_false_iff_ne.2 hkey
      have hne' : (Target.format name == Target.format key) = false :=
        beq_eq_false_iff_ne.2 fun h => hkey (Target.format.inj h)
      rw [hne] at h
      cases f with
      | schema t => simp only [List.filterMap_cons, List.map_cons, List.lookup_cons, hne', ih h]
      | _ => exact ih h

theorem lookup_format {name : String} {s : Json} (h : o.formats.lookup name = some (.schema s)) :
    (of root o).lookup (.format name) = some s := by
  have hreferences : (((documents root o).flatMap Json.references).filterMap
      (ofReference? root o)).lookup (.format name) = none := by
    rw [List.lookup_eq_none_iff]
    simp only [List.mem_filterMap, ofReference?, Option.map_eq_some_iff]
    rintro _ ⟨t, -, y, -, rfl⟩
    rfl
  rw [of, List.lookup_append, hreferences, Option.none_or]
  exact lookup_formatSchemas h

/-- **A target that a schema of the documents names is listed with the schema that it denotes.** -/
theorem lookup_of_names {ms : Members} {k : Target} (hms : Held root o (.object ms))
    (hk : ms.Names o k) : (of root o).lookup k = k.schema? root o := by
  cases hk with
  | format _ hs => rw [lookup_format hs, Target.schema?, hs]
  | reference _ hl =>
    obtain ⟨d, hd, hms⟩ := hms
    refine lookup_reference (List.mem_flatMap.2 ⟨d, hd, Json.references_of_inside hms ?_⟩)
    exact Json.mem_referencesMembers.2 (.inl (mem_of_lookup hl))

end Targets

end Targets

end JsonSchema
