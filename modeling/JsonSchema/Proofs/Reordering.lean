import JsonSchema.Proofs.Corresponding
import JsonSchema.Proofs.Identifiers
import JsonSchema.Proofs.Places
import JsonSchema.Proofs.Reshaping

/-!
# Documents with their members in another order

Two documents that differ only in the order of members have corresponding values in the same places.
Pointers do not see the order, but looking an identifier up does: it finds the first object that has
it. So a reference denotes corresponding values in both documents if at most one object of the first
one has the reference as its identifier.

* `Json.Reordered`: values that differ in the order of members only;
* `Json.Reordered.at?`, `Json.Reordered.pointerChars?`: the values in the same places;
* `Json.IdOnce`: at most one object has an identifier;
* `Json.Reordered.resolve?`, `Target.schema?_reordered`: what references and targets denote.
-/

namespace JsonSchema

/-- Values that differ in the order of members only, at any depth. -/
abbrev Json.Reordered (v w : Json) : Prop := v.Corresponds (· = ·) w

/-- Both results are there and differ in the order of members only, or neither is there. -/
abbrev OptionReordered : Option Json → Option Json → Prop := Option.Rel Json.Reordered

theorem OptionReordered.of_distinct {x : Option Json} (h : ∀ v, x = some v → v.distinct) :
    OptionReordered x x := by
  cases x with
  | none => exact .none
  | some v => exact .some (.refl (fun _ => rfl) v (h v rfl))

theorem OptionReordered.bind {x y : Option Json} {f g : Json → Option Json}
    (h : OptionReordered x y) (hfg : ∀ v w, v.Reordered w → OptionReordered (f v) (g w)) :
    OptionReordered (x.bind f) (y.bind g) := by
  cases h with
  | none => exact .none
  | some h => exact hfg _ _ h

/-- A value that occurs in a document stands in some place of it. -/
theorem Json.Inside.exists_at? {x v : Json} (h : x.Inside v) (hv : v.distinct) :
    ∃ p, v.at? p = some x := by
  induction h with
  | refl => exact ⟨[], rfl⟩
  | @part y z hy _ ih =>
    obtain ⟨p, hp⟩ := ih (distinct_of_mem_parts hv hy)
    have hseg : ∃ seg, z.child? seg = some y := by
      cases z with
      | array xs =>
        obtain ⟨i, hi⟩ := List.mem_iff_getElem?.1 hy
        exact ⟨.index i, hi⟩
      | object ms =>
        obtain ⟨m, hm, rfl⟩ := List.mem_map.1 hy
        exact ⟨.name m.1, lookup_eq_some_of_mem (distinct_object.1 hv).1 hm⟩
      | _ => cases hy
    obtain ⟨seg, hseg⟩ := hseg
    exact ⟨seg :: p, by rw [at?, hseg]; exact hp⟩

theorem Json.at?_inside {x v : Json} {p : Path} (h : v.at? p = some x) : x.Inside v := by
  induction p generalizing v with
  | nil =>
    cases h
    exact .refl
  | cons seg p ih =>
    obtain ⟨w, hw, h⟩ := Option.bind_eq_some_iff.1 h
    exact (ih h).trans (child?_inside hw)

namespace Json.Reordered

variable {v w : Json}

theorem symm (h : v.Reordered w) : w.Reordered v := Corresponds.symm (fun _ _ => Eq.symm) h

theorem trans {u : Json} (h : u.Reordered v) (h' : v.Reordered w) : u.Reordered w := by
  refine Corresponds.trans ?_ h h'
  exact fun _ _ _ => Eq.trans

/-- Objects are reordered if their members are, in one order or another. -/
theorem of_perm {ms ls ns : Members} (hd : (ms.map Prod.fst).Nodup)
    (h : List.Forall₂ (SameKey Reordered) ms ls) (hperm : ls.Perm ns) :
    (object ms).Reordered (object ns) := by
  have hkeys : ms.map Prod.fst = ls.map Prod.fst := by
    refine List.forall₂_eq_eq_eq ▸ List.forall₂_map_left_iff.2 (List.forall₂_map_right_iff.2 ?_)
    exact h.imp fun _ _ hef => hef.1
  refine .object hd (hkeys ▸ hperm.map Prod.fst) fun name x y hx hy => ?_
  obtain ⟨e, he, hname, hey⟩ :=
    (Paired.of_forall₂ h).right (name, y) (hperm.mem_iff.2 (mem_of_lookup hy))
  obtain rfl : x = e.2 := by
    have hlookup := lookup_eq_some_of_mem hd he
    rw [hname, hx] at hlookup
    exact Option.some.inj hlookup
  exact hey

/-- Reordered values are of one kind, and so are their parts. -/
theorem shape (h : v.Reordered w) : v.SameShape Reordered w :=
  Corresponds.sameShape Number.same_of_eq h

theorem exists_object {ms : Members} (h : (object ms).Reordered w) : ∃ ns, w = object ns := by
  cases h with
  | @object _ ns => exact ⟨ns, rfl⟩

theorem eq_of_isScalar (h : v.Reordered w) (hv : v.isScalar = true) : v = w := by
  cases h with
  | number hab => rw [hab]
  | array | object => cases hv
  | _ => rfl

theorem isSchema_eq (h : v.Reordered w) : v.isSchema = w.isSchema := by cases h <;> rfl

/-! ## The same places -/

section Members

variable {ms ns : Members} (h : (object ms).Reordered (object ns))
include h

/-- Scalars are the same in both objects. -/
theorem lookup_eq_some_iff {name : String} {x : Json} (hx : x.isScalar = true) :
    ms.lookup name = some x ↔ ns.lookup name = some x := by
  constructor
  · intro hl
    obtain ⟨y, hy, hxy⟩ := exists_right_of_rel (h.lookup name) hl
    rw [hy, eq_of_isScalar hxy hx]
  · intro hl
    obtain ⟨y, hy, hxy⟩ := exists_left_of_rel (h.lookup name) hl
    rw [hy, (symm hxy).eq_of_isScalar hx]

theorem hasId_iff {id : String} : ms.HasId id ↔ ns.HasId id :=
  or_congr (h.lookup_eq_some_iff rfl) (h.lookup_eq_some_iff rfl)

end Members

theorem child? (h : v.Reordered w) (seg : Segment) :
    OptionReordered (v.child? seg) (w.child? seg) := by
  cases h.shape with
  | object _ _ hlookup =>
    cases seg with
    | name s => exact hlookup s
    | index n => exact .none
  | array hitems =>
    cases seg with
    | name s => exact .none
    | index n => exact rel_getElem?_of_forall₂ hitems n
  | _ => exact .none

theorem at? (h : v.Reordered w) (p : Path) : OptionReordered (v.at? p) (w.at? p) := by
  induction p generalizing v w with
  | nil => exact .some h
  | cons seg p ih => exact (h.child? seg).bind fun x y hxy => ih hxy

theorem select? (h : v.Reordered w) (token : List Char) :
    OptionReordered (v.select? token) (w.select? token) := by
  cases h.shape with
  | object _ _ hlookup => exact hlookup _
  | array hitems =>
    show OptionReordered ((Pointer.indexChars? token).bind _) ((Pointer.indexChars? token).bind _)
    cases Pointer.indexChars? token with
    | none => exact .none
    | some n => exact rel_getElem?_of_forall₂ hitems n
  | _ => exact .none

theorem follow? (h : v.Reordered w) (tokens : List (List Char)) :
    OptionReordered (v.follow? tokens) (w.follow? tokens) := by
  induction tokens generalizing v w with
  | nil => exact .some h
  | cons t ts ih => exact (h.select? _).bind fun x y hxy => ih hxy

theorem pointerChars? (h : v.Reordered w) (cs : List Char) :
    OptionReordered (v.pointerChars? cs) (w.pointerChars? cs) := by
  rw [Json.pointerChars?, Json.pointerChars?]
  split
  · exact .some h
  · split
    · exact h.follow? _
    · exact .none

end Json.Reordered

/-! ## Identifiers -/

namespace Json

/-- At most one object of the value has the identifier. -/
def IdOnce (v : Json) (id : String) : Prop :=
  ∀ (p q : Path) (ms ns : Members), v.at? p = some (.object ms) → v.at? q = some (.object ns) →
    ms.HasId id → ns.HasId id → p = q

mutual
/-- The places of the objects that have an identifier. -/
def bearers (id : String) : Json → List Path
  | object ms => (bif hasId ms id then [[]] else []) ++ bearersMembers id ms
  | array xs => bearersItems id 0 xs
  | _ => []

def bearersItems (id : String) (i : Nat) : List Json → List Path
  | [] => []
  | x :: xs => (bearers id x).map (.index i :: ·) ++ bearersItems id (i + 1) xs

def bearersMembers (id : String) : Members → List Path
  | [] => []
  | (name, v) :: ms => (bearers id v).map (.name name :: ·) ++ bearersMembers id ms
end

theorem mem_bearersItems {id : String} {xs : List Json} {x : Json} {p : Path} {i : Nat}
    (hx : xs[i]? = some x) (hp : p ∈ x.bearers id) (k : Nat) :
    .index (k + i) :: p ∈ bearersItems id k xs := by
  induction xs generalizing i k with
  | nil => cases hx
  | cons y xs ih =>
    rw [bearersItems, List.mem_append]
    cases i with
    | zero =>
      cases hx
      exact .inl (List.mem_map_of_mem hp)
    | succ i =>
      rw [← Nat.succ_add_eq_add_succ]
      exact .inr (ih hx (k + 1))

theorem mem_bearersMembers {id : String} {ms : Members} {name : String} {x : Json} {p : Path}
    (hx : (name, x) ∈ ms) (hp : p ∈ x.bearers id) : .name name :: p ∈ bearersMembers id ms := by
  induction ms with
  | nil => cases hx
  | cons m ms ih =>
    obtain ⟨key, y⟩ := m
    rw [bearersMembers, List.mem_append]
    rcases List.mem_cons.1 hx with h | h
    · cases h
      exact .inl (List.mem_map_of_mem hp)
    · exact .inr (ih h)

theorem mem_bearers {v : Json} {id : String} {p : Path} {ms : Members}
    (h : v.at? p = some (object ms)) (hid : ms.HasId id) : p ∈ v.bearers id := by
  induction p generalizing v with
  | nil =>
    cases h
    rw [bearers, hasId_iff.2 hid]
    exact List.mem_cons_self
  | cons seg p ih =>
    obtain ⟨w, hw, hp⟩ := Option.bind_eq_some_iff.1 h
    cases v with
    | object ns =>
      cases seg with
      | name s => exact List.mem_append_right _ (mem_bearersMembers (mem_of_lookup hw) (ih hp))
      | index i => cases hw
    | array xs =>
      cases seg with
      | name s => cases hw
      | index i => simpa [bearers] using mem_bearersItems hw (ih hp) 0
    | _ => cases hw

/-- It can be computed how many objects have an identifier. -/
theorem IdOnce.of_bearers {v : Json} {id : String} (h : (v.bearers id).length ≤ 1) :
    v.IdOnce id := by
  intro p q ms ns hp hq hms hns
  have hp := mem_bearers hp hms
  have hq := mem_bearers hq hns
  rcases Nat.le_one_iff_eq_zero_or_eq_one.1 h with h | h
  · rw [List.length_eq_zero_iff.1 h] at hp
    cases hp
  · obtain ⟨r, hr⟩ := List.length_eq_one_iff.1 h
    rw [hr, List.mem_singleton] at hp hq
    rw [hp, hq]

namespace Reordered

variable {v w : Json} {id : String}

/-- An object with the identifier has one in the same place of the other document. -/
theorem holdsId (h : v.Reordered w) (hid : v.HoldsId id) : w.HoldsId id := by
  obtain ⟨ms, hin, hms⟩ := hid
  obtain ⟨p, hp⟩ := hin.exists_at? h.distinct_left
  obtain ⟨y, hy, hxy⟩ := exists_right_of_rel (h.at? p) hp
  obtain ⟨ns, rfl⟩ := exists_object hxy
  exact ⟨ns, at?_inside hy, hasId_iff hxy |>.1 hms⟩

/-- Looking up an identifier that at most one object has does not see the order of members. -/
theorem findId? (h : v.Reordered w) (hid : v.IdOnce id) :
    OptionReordered (v.findId? id) (w.findId? id) := by
  cases hv : v.findId? id with
  | none =>
    have hw : w.findId? id = none :=
      findId?_eq_none_iff.2 fun hw => findId?_eq_none_iff.1 hv (symm h |>.holdsId hw)
    rw [hw]
    exact .none
  | some x =>
    cases hw : w.findId? id with
    | none =>
      refine absurd (findId?_eq_none_iff.2 fun hv' => ?_) (Option.ne_none_iff_exists'.2 ⟨x, hv⟩)
      exact findId?_eq_none_iff.1 hw (h.holdsId hv')
    | some y =>
      obtain ⟨ms, rfl, hms⟩ := hasId_of_findId? hv
      obtain ⟨ns, rfl, hns⟩ := hasId_of_findId? hw
      obtain ⟨p, hp⟩ := (findId?_inside hv).exists_at? h.distinct_left
      obtain ⟨q, hq⟩ := (findId?_inside hw).exists_at? h.distinct_right
      -- the object that the second look-up finds has its counterpart in the first document
      obtain ⟨z, hz, hzy⟩ := exists_left_of_rel (h.at? q) hq
      obtain ⟨ls, rfl⟩ := exists_object (symm hzy)
      obtain rfl := hid p q ms ls hp hz hms (hasId_iff hzy |>.2 hns)
      rw [hp] at hz
      cases hz
      exact .some hzy

end Reordered

end Json

/-! ## References and targets -/

section Targets

variable {root root' : Json} {o : Options}

/-- **What a reference denotes** does not depend on the order of members, if at most one object has
the reference as its identifier. -/
theorem Json.Reordered.resolve? (h : root.Reordered root') {documents : Documents}
    (hd : ∀ d ∈ documents.map Prod.snd, d.distinct) {text : String} (hid : root.IdOnce text) :
    OptionReordered (resolve? root documents text) (JsonSchema.resolve? root' documents text) := by
  have hdistinct : ∀ v, JsonSchema.resolve? root documents text = some v → v.distinct := by
    intro v hv
    obtain ⟨d, hmem, hin⟩ := resolve?_inside hv
    refine hin.distinct ?_
    rcases List.mem_cons.1 hmem with rfl | hmem
    · exact h.distinct_left
    · exact hd d hmem
  rw [JsonSchema.resolve?] at hdistinct ⊢
  rw [JsonSchema.resolve?]
  have hfind := h.findId? hid
  generalize root.findId? text = x, root'.findId? text = y at hfind hdistinct ⊢
  cases hfind with
  | some hxy => exact .some hxy
  | none =>
    dsimp only at hdistinct ⊢
    generalize (percentDecode? (Pointer.dropSign text.toList)).getD _ = decoded at hdistinct ⊢
    cases hp : Pointer.isPointer decoded with
    | true => exact h.pointerChars? _
    | false =>
      rw [hp] at hdistinct
      exact .of_distinct hdistinct

/-- **What a target denotes** does not depend on the order of members. -/
theorem Target.schema?_reordered (h : root.Reordered root')
    (hd : ∀ d ∈ Targets.documents root o, d.distinct) {k : Target}
    (hid : ∀ text, k = .reference text → root.IdOnce text) :
    OptionReordered (k.schema? root o) (k.schema? root' o) := by
  cases k with
  | reference text =>
    have hdocuments : ∀ d ∈ o.documents.map Prod.snd, d.distinct := fun d hmem =>
      hd d (List.mem_append_left _ (List.mem_cons_of_mem _ hmem))
    have hresolve := h.resolve? hdocuments (hid text rfl)
    rw [schema?, schema?]
    generalize resolve? root o.documents text = x, resolve? root' o.documents text = y at hresolve
    cases hresolve with
    | none => exact .none
    | @some v w hvw =>
      rw [Option.filter_some, Option.filter_some, hvw.isSchema_eq]
      cases w.isSchema with
      | true => exact .some hvw
      | false => exact .none
  | format name =>
    refine .of_distinct fun v hv => ?_
    have hheld : Held root o v := held_of_schema? hv
    exact hheld.distinct hd

end Targets

end JsonSchema
