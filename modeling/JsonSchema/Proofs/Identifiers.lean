import JsonSchema.Proofs.Documents

/-!
# Identifiers

An object of a document may have a text as its identifier, and a reference with this text denotes
the first such object. Without one, the reference is read as a pointer or as a key.

* `Members.HasId`: an object has an identifier;
* `Json.HoldsId`: an object somewhere in a value has an identifier;
* `Json.findId?_eq_none_iff`: looking an identifier up fails if no object has it.
-/

namespace JsonSchema

/-- The `id` or the `$id` of an object is the given text. -/
def Members.HasId (ms : Members) (id : String) : Prop :=
  ms.lookup "id" = some (.string id) ∨ ms.lookup "$id" = some (.string id)

namespace Json

/-- An object that occurs in the value has the given identifier. -/
def HoldsId (v : Json) (id : String) : Prop :=
  ∃ ms : Members, (object ms).Inside v ∧ ms.HasId id

theorem string?_eq_some {v : Json} {s : String} : v.string? = some s ↔ v = string s := by
  cases v <;> simp [string?]

theorem hasId_iff {ms : Members} {id : String} : hasId ms id = true ↔ ms.HasId id := by
  have hmember (name : String) :
      ((ms.lookup name).bind string? == some id) = true ↔ ms.lookup name = some (string id) := by
    rw [beq_iff_eq, Option.bind_eq_some_iff]
    simp [string?_eq_some]
  rw [hasId, Bool.or_eq_true, hmember, hmember, Members.HasId]

/-! ## Looking identifiers up -/

mutual
/-- What is found has the identifier. -/
theorem hasId_of_findId? {id : String} {v w : Json} (h : v.findId? id = some w) :
    ∃ ms : Members, w = object ms ∧ ms.HasId id := by
  cases v with
  | object ms =>
    rw [findId?] at h
    cases hid : hasId ms id with
    | true =>
      rw [hid] at h
      cases h
      exact ⟨ms, rfl, hasId_iff.1 hid⟩
    | false =>
      rw [hid] at h
      exact hasId_of_findIdMembers? h
  | array xs =>
    rw [findId?] at h
    exact hasId_of_findIdItems? h
  | _ => simp [findId?] at h

theorem hasId_of_findIdItems? {id : String} {xs : List Json} {w : Json}
    (h : findIdItems? id xs = some w) : ∃ ms : Members, w = object ms ∧ ms.HasId id := by
  cases xs with
  | nil => simp [findIdItems?] at h
  | cons x xs =>
    rw [findIdItems?, Option.or_eq_some_iff] at h
    rcases h with h | ⟨-, h⟩
    · exact hasId_of_findId? h
    · exact hasId_of_findIdItems? h

theorem hasId_of_findIdMembers? {id : String} {ms : Members} {w : Json}
    (h : findIdMembers? id ms = some w) : ∃ ms : Members, w = object ms ∧ ms.HasId id := by
  cases ms with
  | nil => simp [findIdMembers?] at h
  | cons m ms =>
    obtain ⟨name, v⟩ := m
    rw [findIdMembers?, Option.or_eq_some_iff] at h
    rcases h with h | ⟨-, h⟩
    · exact hasId_of_findId? h
    · exact hasId_of_findIdMembers? h
end

theorem findIdItems?_eq_none {id : String} {xs : List Json} (h : findIdItems? id xs = none) :
    ∀ x ∈ xs, x.findId? id = none := by
  induction xs with
  | nil => exact List.forall_mem_nil _
  | cons x xs ih =>
    rw [findIdItems?, Option.or_eq_none_iff] at h
    exact List.forall_mem_cons.2 ⟨h.1, ih h.2⟩

theorem findIdMembers?_eq_none {id : String} {ms : Members} (h : findIdMembers? id ms = none) :
    ∀ m ∈ ms, m.2.findId? id = none := by
  induction ms with
  | nil => exact List.forall_mem_nil _
  | cons m ms ih =>
    obtain ⟨name, v⟩ := m
    rw [findIdMembers?, Option.or_eq_none_iff] at h
    exact List.forall_mem_cons.2 ⟨h.1, ih h.2⟩

theorem findId?_part {id : String} {v w : Json} (h : v.findId? id = none) (hw : w ∈ v.parts) :
    w.findId? id = none := by
  cases v with
  | object ms =>
    obtain ⟨m, hm, rfl⟩ := List.mem_map.1 hw
    rw [findId?] at h
    cases hid : hasId ms id with
    | true =>
      rw [hid] at h
      cases h
    | false =>
      rw [hid] at h
      exact findIdMembers?_eq_none h m hm
  | array xs =>
    rw [findId?] at h
    exact findIdItems?_eq_none h w hw
  | _ => cases hw

/-- **Looking an identifier up fails** only if no object has it. -/
theorem findId?_eq_none_iff {v : Json} {id : String} : v.findId? id = none ↔ ¬v.HoldsId id := by
  constructor
  · rintro h ⟨ms, hin, hid⟩
    have hpart : (object ms).findId? id = none := by
      clear hid
      induction hin with
      | refl => exact h
      | part hy _ ih => exact ih (findId?_part h hy)
    rw [findId?, hasId_iff.2 hid] at hpart
    cases hpart
  · intro h
    rw [Option.eq_none_iff_forall_ne_some]
    intro w hw
    obtain ⟨ms, rfl, hid⟩ := hasId_of_findId? hw
    exact h ⟨ms, findId?_inside hw, hid⟩

end Json

end JsonSchema
