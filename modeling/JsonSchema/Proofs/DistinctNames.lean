import JsonSchema.Json.Reader
import JsonSchema.Proofs.Parts
import Mathlib.Data.List.Nodup

/-!
# Distinct member names

The objects of a JSON document have no two members of one name. Looking a name up then finds the
one member that has it, and giving that member its own value back changes nothing.

* `Json.distinct`: no object in a value has two members of one name;
* `Json.distinct_object`, `Json.distinct_of_mem_parts`: what this says of objects and of parts;
* `Members.lookup_replace`, `Members.lookup_filter`: looking up in changed members;
* `Json.parse?_distinct`, `Json.IsRead.distinct`: the values that are read.
-/

namespace JsonSchema

/-! ## Looking up -/

theorem lookup_eq_some_of_mem {κ α : Type} [DecidableEq κ] {L : List (κ × α)} {k : κ} {a : α}
    (h : (L.map Prod.fst).Nodup) (hm : (k, a) ∈ L) : L.lookup k = some a := by
  cases hl : L.lookup k with
  | none => simpa using List.lookup_eq_none_iff.1 hl _ hm
  | some b =>
    have hmem := mem_of_lookup hl
    have : (k, a) = (k, b) := List.inj_on_of_nodup_map h hm hmem rfl
    rw [(Prod.mk.inj this).2]

namespace Members

variable (ms : Members) (name : String)

theorem lookup_isSome_iff : (ms.lookup name).isSome ↔ name ∈ ms.map Prod.fst := by
  constructor
  · intro h
    obtain ⟨v, hv⟩ := Option.isSome_iff_exists.1 h
    exact List.mem_map_of_mem (f := Prod.fst) (mem_of_lookup hv)
  · intro h
    obtain ⟨m, hm, rfl⟩ := List.mem_map.1 h
    by_contra hn
    rw [Option.not_isSome_iff_eq_none, List.lookup_eq_none_iff] at hn
    simpa using hn m hm

theorem lookup_replace (key : String) (v : Json) :
    (ms.replace name v).lookup key =
      if key = name then (ms.lookup key).map fun _ => v else ms.lookup key := by
  induction ms with
  | nil => simp [replace]
  | cons m ms ih =>
    obtain ⟨first, w⟩ := m
    rw [replace] at ih
    rw [replace, List.map_cons]
    have hfirst : (if first = name then (first, v) else (first, w)).1 = first := by
      split <;> rfl
    rw [List.lookup_cons, hfirst, ih, List.lookup_cons]
    by_cases hk : key = first
    · subst hk
      by_cases hn : key = name <;> simp [hn]
    · have hb : (key == first) = false := by simpa using hk
      simp only [hb]

theorem lookup_filter (keep : String → Bool) :
    (ms.filter fun m => keep m.1).lookup name = if keep name then ms.lookup name else none := by
  induction ms with
  | nil => simp
  | cons m ms ih =>
    obtain ⟨first, v⟩ := m
    rw [List.filter_cons]
    by_cases hk : name = first
    · subst hk
      cases hkeep : keep name with
      | true => simp
      | false => simp [hkeep, ih]
    · have hb : (name == first) = false := by simpa using hk
      cases keep first <;> simp [List.lookup_cons, hb, ih]

/-- The one member of a name may be given its own value. -/
theorem replace_self {v : Json} (hd : (ms.map Prod.fst).Nodup) (h : ms.lookup name = some v) :
    ms.replace name v = ms := by
  have hsame : ∀ m ∈ ms, (if m.1 = name then (m.1, v) else m) = m := by
    intro m hm
    split
    · next hname =>
      have hv : m.2 = v := Option.some.inj ((lookup_eq_some_of_mem hd hm).symm.trans (hname ▸ h))
      rw [← hv]
    · rfl
  rw [replace, List.map_congr_left hsame, List.map_id'']
  exact fun _ => rfl

end Members

/-! ## Values -/

namespace Json

mutual
/-- No object in the value has two members of one name. -/
def distinct : Json → Bool
  | array xs => distinctItems xs
  | object ms => distinctMembers ms
  | _ => true

def distinctItems : List Json → Bool
  | [] => true
  | x :: xs => x.distinct && distinctItems xs

def distinctMembers : Members → Bool
  | [] => true
  | (name, v) :: ms => !Members.has ms name && v.distinct && distinctMembers ms
end

theorem distinct_array {xs : List Json} : (array xs).distinct ↔ ∀ x ∈ xs, x.distinct := by
  rw [distinct]
  induction xs with
  | nil => simp [distinctItems]
  | cons x xs ih => simp [distinctItems, ih]

theorem distinct_object {ms : Members} :
    (object ms).distinct ↔ (ms.map Prod.fst).Nodup ∧ ∀ m ∈ ms, m.2.distinct := by
  rw [distinct]
  induction ms with
  | nil => simp [distinctMembers]
  | cons m ms ih =>
    obtain ⟨name, v⟩ := m
    have hname : (!Members.has ms name) = true ↔ name ∉ ms.map Prod.fst := by
      rw [Bool.not_eq_true', ← Bool.not_eq_true, Members.has, Members.lookup_isSome_iff]
    rw [distinctMembers, Bool.and_eq_true, Bool.and_eq_true, hname, ih, List.map_cons,
      List.nodup_cons, List.forall_mem_cons]
    tauto

theorem distinct_of_mem_parts {v w : Json} (h : v.distinct) (hw : w ∈ v.parts) : w.distinct := by
  cases v with
  | array xs => exact distinct_array.1 h w hw
  | object ms =>
    obtain ⟨m, hm, rfl⟩ := List.mem_map.1 hw
    exact (distinct_object.1 h).2 m hm
  | _ => simp [parts] at hw

theorem distinct_of_lookup {ms : Members} {name : String} {v : Json} (h : (object ms).distinct)
    (hl : ms.lookup name = some v) : v.distinct :=
  distinct_of_mem_parts h (List.mem_map_of_mem (mem_of_lookup hl))

end Json

/-! ## Reading -/

theorem Members.distinct_insert {ms : Members} {name : String} {v : Json}
    (hms : (Json.object ms).distinct) (hv : v.distinct) :
    (Json.object (Members.insert ms name v)).distinct := by
  obtain ⟨hnames, hparts⟩ := Json.distinct_object.1 hms
  rw [Members.insert, Json.distinct_object]
  cases hhas : Members.has ms name with
  | false =>
    have hnew : name ∉ ms.map Prod.fst := by
      rw [← lookup_isSome_iff]
      exact Bool.eq_false_iff.1 hhas
    refine ⟨?_, List.forall_mem_append.2 ⟨hparts, List.forall_mem_singleton.2 hv⟩⟩
    show ((ms ++ [(name, v)]).map Prod.fst).Nodup
    rw [List.map_append]
    exact hnames.append (List.nodup_singleton name) (List.disjoint_singleton.2 hnew)
  | true =>
    refine ⟨?_, List.forall_mem_map.2 fun m hm => ?_⟩
    · show ((Members.replace ms name v).map Prod.fst).Nodup
      rwa [map_fst_replace]
    · split
      · exact hv
      · exact hparts m hm

namespace Reader

theorem distinct_of_map {α : Type} {r : Option α} {f : α → Json × List Char} {v : Json}
    {rest : List Char} (h : r.map f = some (v, rest)) (hf : ∀ a, r = some a → (f a).1.distinct) :
    v.distinct := by
  obtain ⟨a, ha, heq⟩ := Option.map_eq_some_iff.1 h
  have hdistinct := hf a ha
  rwa [heq] at hdistinct

/-- What is read with some fuel has distinct names, if what was collected before has. -/
theorem distinct_of_fuel (fuel : Nat) :
    (∀ cs v rest, value? fuel cs = some (v, rest) → v.distinct) ∧
      (∀ done cs xs rest, (∀ x ∈ done, x.distinct) → items? fuel done cs = some (xs, rest) →
        ∀ x ∈ xs, x.distinct) ∧
        ∀ done cs ms rest, (Json.object done).distinct → members? fuel done cs = some (ms, rest) →
          (Json.object ms).distinct := by
  induction fuel with
  | zero => exact ⟨nofun, nofun, nofun⟩
  | succ fuel ih =>
    obtain ⟨hvalue, hitems, hmembers⟩ := ih
    refine ⟨fun cs v rest h => ?_, fun done cs xs rest hdone h => ?_,
      fun done cs ms rest hdone h => ?_⟩
    · rw [value?] at h
      split at h
      · exact distinct_of_map h fun _ _ => rfl
      · split at h
        · cases h
          rfl
        · exact distinct_of_map h fun r hr =>
            Json.distinct_array.2 (hitems _ _ _ _ (List.forall_mem_nil _) hr)
      · split at h
        · cases h
          rfl
        · exact distinct_of_map h fun r hr => hmembers _ _ _ _ rfl hr
      · exact distinct_of_map h fun _ _ => rfl
      · exact distinct_of_map h fun _ _ => rfl
      · exact distinct_of_map h fun _ _ => rfl
      · obtain ⟨⟨x, cs⟩, -, h⟩ := Option.bind_eq_some_iff.1 h
        obtain ⟨n, -, heq⟩ := Option.bind_eq_some_iff.1 h
        cases heq
        rfl
    · rw [items?] at h
      obtain ⟨⟨v, cs⟩, hv, h⟩ := Option.bind_eq_some_iff.1 h
      have hcollected : ∀ x ∈ v :: done, x.distinct :=
        List.forall_mem_cons.2 ⟨hvalue _ _ _ hv, hdone⟩
      dsimp only at h
      split at h
      · exact hitems _ _ _ _ hcollected h
      · cases h
        exact fun x hx => hcollected x (List.mem_reverse.1 hx)
      · cases h
    · rw [members?] at h
      split at h
      · obtain ⟨⟨name, cs⟩, -, h⟩ := Option.bind_eq_some_iff.1 h
        dsimp only at h
        split at h
        · obtain ⟨⟨v, cs⟩, hv, h⟩ := Option.bind_eq_some_iff.1 h
          have hcollected : (Json.object (Members.insert done name v)).distinct :=
            Members.distinct_insert hdone (hvalue _ _ _ hv)
          dsimp only at h
          split at h
          · exact hmembers _ _ _ _ hcollected h
          · cases h
            exact hcollected
          · cases h
        · cases h
      · cases h

end Reader

/-- **The values that are read** have distinct names. -/
theorem Json.parse?_distinct {text : String} {v : Json} (h : Json.parse? text = some v) :
    v.distinct := by
  obtain ⟨⟨w, rest⟩, hw, h⟩ := Option.bind_eq_some_iff.1 h
  dsimp only at h
  split at h
  · cases h
    exact (Reader.distinct_of_fuel _).1 _ _ _ hw
  · cases h

/-- The value of some text, as all values and documents from outside are. -/
def Json.IsRead (v : Json) : Prop := ∃ text, Json.parse? text = some v

theorem Json.IsRead.distinct {v : Json} (h : v.IsRead) : v.distinct := by
  obtain ⟨_, htext⟩ := h
  exact Json.parse?_distinct htext

end JsonSchema
