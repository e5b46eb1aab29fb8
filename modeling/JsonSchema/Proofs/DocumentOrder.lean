import JsonSchema.Proofs.Corresponding
import JsonSchema.Proofs.Identifiers

/-!
# The first value with an identifier

The values of a document stand in an order: a value before its parts, and the parts in the order of
items and members. Looking an identifier up gives the first object that has it, also where other
such objects are nested in it or are mere data, and a reference with this text denotes that object.

* `Json.places`: the values of a document in order, each with its path;
* `Json.mem_places`, `Json.places_pairwise`: they are the values at all paths, in order;
* `Json.findId?_eq_find?`: looking an identifier up searches them from the first one on;
* `Json.findId?_first`: what is found, and what a reference with an identifier denotes.
-/

namespace JsonSchema

namespace Json

/-! ## The order of values -/

mutual
/-- The values in a value with their paths, a value before its parts. -/
def places : Json → List (Path × Json)
  | array xs => ([], array xs) :: placesItems 0 xs
  | object ms => ([], object ms) :: placesMembers ms
  | v => [([], v)]

def placesItems (i : Nat) : List Json → List (Path × Json)
  | [] => []
  | x :: xs => (places x).map (fun e => (.index i :: e.1, e.2)) ++ placesItems (i + 1) xs

def placesMembers : Members → List (Path × Json)
  | [] => []
  | (name, v) :: ms => (places v).map (fun e => (.name name :: e.1, e.2)) ++ placesMembers ms
end

/-- The parts of a value with their segments, in order. -/
def branches : Json → List (Segment × Json)
  | array xs => xs.zipIdx.map fun x => (.index x.2, x.1)
  | object ms => ms.map fun m => (.name m.1, m.2)
  | _ => []

/-- One path comes before another one in the order of a value. -/
inductive Precedes : Json → Path → Path → Prop
  /-- A value comes before its parts. -/
  | part {v : Json} {seg : Segment} {q : Path} : Precedes v [] (seg :: q)
  | within {v w : Json} {seg : Segment} {p q : Path} : v.child? seg = some w → Precedes w p q →
      Precedes v (seg :: p) (seg :: q)
  /-- What is in one part comes before what is in a later part. -/
  | across {v : Json} {a b : Segment} {p q : Path} : [a, b].Sublist (v.branches.map Prod.fst) →
      Precedes v (a :: p) (b :: q)

theorem placesItems_eq (i : Nat) (xs : List Json) :
    placesItems i xs =
      (xs.zipIdx i).flatMap fun x => x.1.places.map fun e => (.index x.2 :: e.1, e.2) := by
  induction xs generalizing i with
  | nil => rfl
  | cons x xs ih => rw [placesItems, ih, List.zipIdx_cons, List.flatMap_cons]

theorem placesMembers_eq (ms : Members) :
    placesMembers ms =
      ms.flatMap fun m => m.2.places.map fun e => (.name m.1 :: e.1, e.2) := by
  induction ms with
  | nil => rfl
  | cons m ms ih => rw [placesMembers, ih, List.flatMap_cons]

/-- A value, and then what is in its parts. -/
theorem places_eq (v : Json) :
    v.places = ([], v) ::
      v.branches.flatMap fun b => b.2.places.map fun e => (b.1 :: e.1, e.2) := by
  cases v with
  | array xs => rw [places, placesItems_eq, branches, List.flatMap_map]
  | object ms => rw [places, placesMembers_eq, branches, List.flatMap_map]
  | _ => rfl

theorem mem_branches {v w : Json} {seg : Segment} (hv : v.distinct) :
    (seg, w) ∈ v.branches ↔ v.child? seg = some w := by
  cases v with
  | array xs =>
    cases seg with
    | name s => simp [branches, child?]
    | index i => simp [branches, child?, List.mem_zipIdx_iff_getElem?]
  | object ms =>
    cases seg with
    | name s =>
      have hmem : (Segment.name s, w) ∈ (object ms).branches ↔ (s, w) ∈ ms := by simp [branches]
      rw [hmem]
      exact ⟨lookup_eq_some_of_mem (distinct_object.1 hv).1, mem_of_lookup⟩
    | index i => simp [branches, child?]
  | _ => simp [branches, child?]

theorem mem_parts_of_child? {v w : Json} {seg : Segment} (h : v.child? seg = some w) :
    w ∈ v.parts := by
  cases v with
  | array xs =>
    cases seg with
    | name s => cases h
    | index i => exact List.mem_of_getElem? h
  | object ms =>
    cases seg with
    | name s => exact List.mem_map_of_mem (mem_of_lookup h)
    | index i => cases h
  | _ => cases h

/-- **The values of a document** are the values at its paths. -/
theorem mem_places {v w : Json} {p : Path} (hv : v.distinct) :
    (p, w) ∈ v.places ↔ v.at? p = some w := by
  induction p generalizing v with
  | nil => simp [places_eq v, at?, eq_comm]
  | cons seg p ih =>
    have hmem : (seg :: p, w) ∈ v.places ↔ ∃ u, (seg, u) ∈ v.branches ∧ (p, w) ∈ u.places := by
      simp [places_eq v, and_assoc]
    rw [hmem, at?, Option.bind_eq_some_iff]
    refine exists_congr fun u => ?_
    rw [mem_branches hv]
    exact and_congr_right fun hu => ih (distinct_of_mem_parts hv (mem_parts_of_child? hu))

/-- **The values of a document stand in its order.** -/
theorem places_pairwise (v : Json) (hv : v.distinct) :
    v.places.Pairwise fun e f => v.Precedes e.1 f.1 := by
  induction v using parts_induction with
  | step v ih =>
    rw [places_eq v, List.pairwise_cons, List.pairwise_flatMap]
    refine ⟨fun e he => ?_, fun b hb => ?_, ?_⟩
    · obtain ⟨b, -, he⟩ := List.mem_flatMap.1 he
      obtain ⟨f, -, rfl⟩ := List.mem_map.1 he
      exact .part
    · have hchild := (mem_branches hv).1 hb
      have hpart := mem_parts_of_child? hchild
      rw [List.pairwise_map]
      exact (ih b.2 hpart (distinct_of_mem_parts hv hpart)).imp fun h => .within hchild h
    · rw [List.pairwise_iff_forall_sublist]
      intro a b hab e he f hf
      obtain ⟨e, -, rfl⟩ := List.mem_map.1 he
      obtain ⟨f, -, rfl⟩ := List.mem_map.1 hf
      exact .across (hab.map Prod.fst)

/-! ## Searching for an identifier -/

/-- The value is an object whose `id` or `$id` is the given text. -/
def Bears (v : Json) (id : String) : Prop := ∃ ms : Members, v = object ms ∧ ms.HasId id

/-- Whether the value is such an object. -/
def bears (id : String) : Json → Bool
  | object ms => hasId ms id
  | _ => false

theorem bears_iff {v : Json} {id : String} : v.bears id = true ↔ v.Bears id := by
  cases v with
  | object ms => simp [bears, Bears, hasId_iff]
  | _ => simp [bears, Bears]

variable (id : String)

/-- What is found at the end of a path is what is found there. -/
theorem find?_below (seg : Segment) (v : Json) :
    ((v.places.map fun e => (seg :: e.1, e.2)).find? fun e => e.2.bears id).map Prod.snd =
      (v.places.find? fun e => e.2.bears id).map Prod.snd := by
  rw [List.find?_map, Option.map_map]
  rfl

mutual
/-- **Looking an identifier up** searches the values of a document in order. -/
theorem findId?_eq_find? (v : Json) :
    v.findId? id = (v.places.find? fun e => e.2.bears id).map Prod.snd := by
  cases v with
  | object ms =>
    rw [findId?, places, List.find?_cons, findIdMembers?_eq_find? ms]
    cases hid : hasId ms id <;> simp [bears, hid]
  | array xs =>
    rw [findId?, places, List.find?_cons, findIdItems?_eq_find? 0 xs]
    rfl
  | _ => rfl

theorem findIdItems?_eq_find? (i : Nat) (xs : List Json) :
    findIdItems? id xs = ((placesItems i xs).find? fun e => e.2.bears id).map Prod.snd := by
  cases xs with
  | nil => rfl
  | cons x xs =>
    rw [findIdItems?, placesItems, List.find?_append, Option.map_or, find?_below,
      findId?_eq_find? x, findIdItems?_eq_find? (i + 1) xs]

theorem findIdMembers?_eq_find? (ms : Members) :
    findIdMembers? id ms = ((placesMembers ms).find? fun e => e.2.bears id).map Prod.snd := by
  cases ms with
  | nil => rfl
  | cons m ms =>
    obtain ⟨name, v⟩ := m
    rw [findIdMembers?, placesMembers, List.find?_append, Option.map_or, find?_below,
      findId?_eq_find? v, findIdMembers?_eq_find? ms]
end

theorem findId?_eq_some_iff {v w : Json} :
    v.findId? id = some w ↔ ∃ before p after, v.places = before ++ (p, w) :: after ∧ w.Bears id ∧
      ∀ e ∈ before, ¬e.2.Bears id := by
  rw [findId?_eq_find?, Option.map_eq_some_iff]
  simp only [List.find?_eq_some_iff_append, Bool.not_eq_true', ← Bool.not_eq_true, bears_iff]
  constructor
  · rintro ⟨⟨p, w⟩, ⟨hw, before, after, hplaces, hbefore⟩, rfl⟩
    exact ⟨before, p, after, hplaces, hw, hbefore⟩
  · rintro ⟨before, p, after, hplaces, hw, hbefore⟩
    exact ⟨(p, w), ⟨hw, before, after, hplaces, hbefore⟩, rfl⟩

theorem findId?_eq_none_iff_places {v : Json} :
    v.findId? id = none ↔ ∀ e ∈ v.places, ¬e.2.Bears id := by
  rw [findId?_eq_find?, Option.map_eq_none_iff, List.find?_eq_none]
  simp only [bears_iff]

/-- **The first object with an identifier** in the order of a document is found, and none only if
there is no such object. The same object is what the identifier denotes as a reference, whatever
documents there are. The order is that of all values of the document with their paths. -/
theorem findId?_first (v : Json) :
    (∀ w, v.findId? id = some w ↔ ∃ before p after, v.places = before ++ (p, w) :: after ∧
      w.Bears id ∧ ∀ e ∈ before, ¬e.2.Bears id) ∧
    (v.findId? id = none ↔ ∀ e ∈ v.places, ¬e.2.Bears id) ∧
    (∀ w documents, v.findId? id = some w → resolve? v documents id = some w) ∧
    (v.distinct → (∀ p w, (p, w) ∈ v.places ↔ v.at? p = some w) ∧
      v.places.Pairwise fun e f => v.Precedes e.1 f.1) := by
  refine ⟨fun w => findId?_eq_some_iff id, findId?_eq_none_iff_places id, fun w documents h => ?_,
    fun hv => ⟨fun p w => mem_places hv, places_pairwise v hv⟩⟩
  rw [resolve?, h]

/-- A document with an identifier in mere data, in an object around another one that has it too, and
in a later object. The text is a pointer as well. -/
def shadowed : Json := .object
  [("a", .object [("enum", .array [.string "#/b", .object [("$id", .string "#/b"),
      ("c", .object [("id", .string "#/b")])]])]),
    ("b", .object [("id", .string "#/b")])]

theorem findId?_first_shadowed :
    shadowed.distinct ∧
      (∃ before p after, shadowed.places = before ++ (p, .object [("$id", .string "#/b"),
          ("c", .object [("id", .string "#/b")])]) :: after ∧
        ∀ e ∈ before, ¬e.2.Bears "#/b") ∧
      resolve? shadowed [("#/b", .null)] "#/b" = some (.object [("$id", .string "#/b"),
        ("c", .object [("id", .string "#/b")])]) ∧
      (∀ p w, (p, w) ∈ shadowed.places ↔ shadowed.at? p = some w) ∧
      shadowed.places.Pairwise fun e f => shadowed.Precedes e.1 f.1 := by
  have hfound : shadowed.findId? "#/b" = some (.object [("$id", .string "#/b"),
      ("c", .object [("id", .string "#/b")])]) := by decide +kernel
  have hdistinct : shadowed.distinct := by decide
  obtain ⟨hfirst, -, hresolve, horder⟩ := findId?_first "#/b" shadowed
  obtain ⟨before, p, after, hplaces, -, hbefore⟩ := (hfirst _).1 hfound
  exact ⟨hdistinct, ⟨before, p, after, hplaces, hbefore⟩, hresolve _ _ hfound, horder hdistinct⟩

end Json

end JsonSchema
