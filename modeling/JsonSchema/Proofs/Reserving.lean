import Mathlib.Data.Set.Card
import JsonSchema.Proofs.Buildable

/-!
# Reserving cells

How compiling gets by with one cell for each target. A target gets an empty cell when it is first
reached, so that its id can be given to all checks that ask for it, and the cell is filled when the
target has been compiled. A nested schema is only compiled if that goes down: fewer targets of the
documents are left without a cell, or as many as before and the schema is smaller.

* `Cells`: the cells, and what has been done to them;
* `reserveNode`: compiling with cells;
* `Reserves`: a step with cells does what a step of a build does;
* `reserve_ends`: compiling with cells always goes down, and gives the same result.
-/

namespace JsonSchema

/-! ## Cells -/

/-- Cells for the nodes of targets. -/
structure Cells where
  /-- The targets that have a cell, with its id, the last one first. -/
  ids : List (Target × Nat) := []
  /-- The cells in the order of their ids. -/
  nodes : List (Option Node) := []
  /-- The ids of the cells that nodes were put into, as often as that was done. -/
  fills : List Nat := []
  /-- The ids that checks were given for their targets. -/
  handed : List (Target × Nat) := []

namespace Cells

def id? (s : Cells) (k : Target) : Option Nat := s.ids.lookup k

/-- Add an empty cell for a target. -/
def reserve (s : Cells) (k : Target) : Cells :=
  { s with ids := (k, s.nodes.length) :: s.ids, nodes := s.nodes ++ [none] }

/-- Put a node into a cell. A cell that is filled keeps its node. -/
def fill (s : Cells) (id : Nat) (n : Node) : Cells :=
  { s with
    nodes := match s.nodes[id]? with
      | some none => s.nodes.set id (some n)
      | _ => s.nodes
    fills := id :: s.fills }

/-- Give the id of a target to a check. -/
def hand (s : Cells) (k : Target) (id : Nat) : Cells := { s with handed := (k, id) :: s.handed }

end Cells

/-! ## Compiling with cells -/

/-- A target that a schema object of the documents names. -/
def NamedIn (root : Json) (o : Options) (k : Target) : Prop :=
  ∃ ms : Members, Held root o (.object ms) ∧ ms.Names o k

/-- The number of targets named in the documents that have no cell yet. -/
noncomputable def Cells.vacant (root : Json) (o : Options) (s : Cells) : Nat :=
  {k | NamedIn root o k ∧ s.id? k = none}.ncard

/-- Compiling the first schema with the first cells is a step down from the second ones. -/
def Descends (root : Json) (o : Options) (a b : Cells × Json) : Prop :=
  Prod.Lex (· < ·) (· < ·) (a.1.vacant root o, a.2.size) (b.1.vacant root o, b.2.size)

/-- Steps that may fail, with what has been done to the cells by then. There is no result if a
nested schema was not a step down. -/
abbrev Reserving (α : Type) := ExceptT SchemaError (StateT Cells Option) α

/-- The id of a target, which is compiled if it has no cell. -/
def reserveTarget (root : Json) (o : Options) (nested : Path → Json → Reserving Node)
    (place : Path) (k : Target) : Reserving Bool := do
  match (← get).id? k with
  | some id =>
    modify fun s => s.hand k id
    return true
  | none =>
    match k.schema? root o with
    | none => return false
    | some y =>
      let id := (← get).nodes.length
      modify fun s => s.reserve k
      let n ← nested place y
      modify fun s => (s.fill id n).hand k id
      return true

def reservingCompiler (root : Json) (o : Options) (nested : Path → Json → Reserving Node) :
    Compiler Reserving where
  node := nested
  target := reserveTarget root o nested
  read r := fun s => some (r, s)

open Classical in
/-- Compile a schema at a place, with the cells that there are. -/
noncomputable def reserveNode (root : Json) (o : Options) (place : Path) (x : Json) (s : Cells) :
    Option (Except SchemaError Node × Cells) :=
  (reservingCompiler root o fun place' y s' =>
    if _h : Descends root o (s', y) (s, x) then reserveNode root o place' y s'
    else none).schema place o x s
termination_by (s.vacant root o, x.size)
decreasing_by exact _h

open Classical in
/-- Steps that are only done if they go down. -/
noncomputable def onlyDown (root : Json) (o : Options) (b : Cells × Json)
    (f : Path → Json → Reserving Node) : Path → Json → Reserving Node :=
  fun place y s => if Descends root o (s, y) b then f place y s else none

theorem reserveNode_eq (root : Json) (o : Options) (place : Path) (x : Json) (s : Cells) :
    reserveNode root o place x s = (reservingCompiler root o
      (onlyDown root o (s, x) (reserveNode root o))).schema place o x s := by
  rw [reserveNode]
  rfl

theorem onlyDown_of_descends {root : Json} {o : Options} {b : Cells × Json}
    {f : Path → Json → Reserving Node} {place : Path} {y : Json} {s : Cells}
    (h : Descends root o (s, y) b) : onlyDown root o b f place y s = f place y s :=
  if_pos h

/-- Compile a schema document with cells. -/
noncomputable def reserve (o : Options) (schema : Json) :
    Option (Except SchemaError Node × Cells) :=
  reserveNode schema o [] schema {}

/-! ## What the cells hold -/

namespace Cells

variable {root : Json} {o : Options} {s : Cells} {k : Target} {id : Nat} {n : Node}

@[simp] theorem id?_reserve (k' : Target) :
    (s.reserve k).id? k' = if k' = k then some s.nodes.length else s.id? k' := by
  rw [id?, reserve, List.lookup_cons]
  by_cases h : k' = k
  · simp [h]
  · simp [h, id?, beq_eq_false_iff_ne.2 h]

@[simp] theorem id?_fill : (s.fill id n).id? k = s.id? k := rfl

@[simp] theorem id?_hand (k' : Target) : (s.hand k id).id? k' = s.id? k' := rfl

/-- Targets keep their ids. -/
def Le (s s' : Cells) : Prop := ∀ k id, s.id? k = some id → s'.id? k = some id

theorem Le.refl (s : Cells) : s.Le s := fun _ _ h => h

theorem Le.trans {s₁ s₂ s₃ : Cells} (h : s₁.Le s₂) (h' : s₂.Le s₃) : s₁.Le s₃ :=
  fun k id hk => h' k id (h k id hk)

theorem Le.reserve (h : s.id? k = none) : s.Le (s.reserve k) := by
  intro k' id hk'
  have hne : k' ≠ k := by
    rintro rfl
    rw [h] at hk'
    cases hk'
  rw [id?_reserve, if_neg hne, hk']

/-- What holds of the cells at all times: every id belongs to one target that is reached, and a node
is put into a cell once at most. -/
structure Valid (root : Json) (o : Options) (s : Cells) : Prop where
  nodup : (s.ids.map Prod.fst).Nodup
  ids : s.ids.map Prod.snd = (List.range s.nodes.length).reverse
  reached : ∀ e ∈ s.ids, e.1.Reached root o
  fills_nodup : s.fills.Nodup
  mem_fills : ∀ id, id ∈ s.fills ↔ ∃ n, s.nodes[id]? = some (some n)
  handed : ∀ e ∈ s.handed, s.id? e.1 = some e.2

theorem Valid.id_lt (h : s.Valid root o) (hk : s.id? k = some id) : id < s.nodes.length := by
  have hmem : id ∈ s.ids.map Prod.snd := List.mem_map_of_mem (mem_of_lookup hk)
  rw [h.ids, List.mem_reverse, List.mem_range] at hmem
  exact hmem

theorem Valid.id_inj (h : s.Valid root o) {k' : Target} (hk : s.id? k = some id)
    (hk' : s.id? k' = some id) : k = k' := by
  have hnodup : (s.ids.map Prod.snd).Nodup := by
    rw [h.ids]
    exact List.nodup_reverse.2 List.nodup_range
  exact congrArg Prod.fst
    (List.inj_on_of_nodup_map hnodup (mem_of_lookup hk) (mem_of_lookup hk') rfl)

theorem Valid.reserve (h : s.Valid root o) (hk : s.id? k = none) (hr : k.Reached root o) :
    (s.reserve k).Valid root o where
  nodup := by
    refine List.nodup_cons.2 ⟨fun hmem => ?_, h.nodup⟩
    obtain ⟨e, he, rfl⟩ := List.mem_map.1 hmem
    simpa using List.lookup_eq_none_iff.1 hk e he
  ids := by simp [Cells.reserve, h.ids, List.range_succ]
  reached := List.forall_mem_cons.2 ⟨hr, h.reached⟩
  fills_nodup := h.fills_nodup
  mem_fills id := by
    refine (h.mem_fills id).trans (exists_congr fun n => ?_)
    show _ ↔ (s.nodes ++ [none])[id]? = _
    rw [List.getElem?_append]
    split
    · rfl
    · next hid =>
      have hnone : s.nodes[id]? = none := List.getElem?_eq_none (Nat.le_of_not_lt hid)
      rw [hnone]
      cases id - s.nodes.length <;> simp
  handed e he := Le.reserve hk e.1 e.2 (h.handed e he)

theorem Valid.hand (h : s.Valid root o) (hk : s.id? k = some id) : (s.hand k id).Valid root o :=
  { h with handed := List.forall_mem_cons.2 ⟨hk, h.handed⟩ }

theorem Valid.fill (h : s.Valid root o) (hid : s.nodes[id]? = some none) :
    (s.fill id n).Valid root o := by
  have hnodes : (s.fill id n).nodes = s.nodes.set id (some n) := by rw [Cells.fill, hid]
  have hlt : id < s.nodes.length := (List.getElem?_eq_some_iff.1 hid).1
  refine ⟨h.nodup, ?_, h.reached, ?_, fun i => ?_, h.handed⟩
  · rw [hnodes, List.length_set]
    exact h.ids
  · refine List.nodup_cons.2 ⟨fun hmem => ?_, h.fills_nodup⟩
    obtain ⟨m, hm⟩ := (h.mem_fills id).1 hmem
    simp [hid] at hm
  · rw [hnodes]
    show i ∈ id :: s.fills ↔ _
    rw [List.mem_cons, h.mem_fills]
    by_cases hi : i = id
    · subst hi
      simp [hlt]
    · simp [Ne.symm hi, hi]

/-- What the cells hold while certain targets are open and a table of compiled targets has been
made: the cells of the open targets are empty, and the others have the nodes of the table. -/
structure Holds (root : Json) (o : Options) (opened : List Target) (table : Subroutines)
    (s : Cells) : Prop where
  valid : s.Valid root o
  empty : ∀ k ∈ opened, ∃ id, s.id? k = some id ∧ s.nodes[id]? = some none
  filled : ∀ k n, table.lookup k = some n →
    ∃ id, s.id? k = some id ∧ s.nodes[id]? = some (some n) ∧ (k, id) ∈ s.handed
  only : ∀ k, (s.id? k).isSome → k ∈ opened ∨ (table.lookup k).isSome

variable {opened : List Target} {table : Subroutines}

theorem Holds.hand (h : s.Holds root o opened table) (hk : s.id? k = some id) :
    (s.hand k id).Holds root o opened table where
  valid := h.valid.hand hk
  empty := h.empty
  filled k' n hn := by
    obtain ⟨id', hid, hcell, hhanded⟩ := h.filled k' n hn
    exact ⟨id', hid, hcell, List.mem_cons_of_mem _ hhanded⟩
  only := h.only

/-- A target that is opened gets an empty cell. -/
theorem Holds.reserve (h : s.Holds root o opened table) (hk : s.id? k = none)
    (hr : k.Reached root o) : (s.reserve k).Holds root o (k :: opened) table := by
  have hkeep {id : Nat} {c : Option Node} (hc : s.nodes[id]? = some c) :
      (s.reserve k).nodes[id]? = some c := by
    show (s.nodes ++ [none])[id]? = _
    rw [List.getElem?_append_left (List.getElem?_eq_some_iff.1 hc).1, hc]
  refine ⟨h.valid.reserve hk hr, List.forall_mem_cons.2 ⟨?_, fun k' hk' => ?_⟩, fun k' n hn => ?_,
    fun k' hk' => ?_⟩
  · exact ⟨s.nodes.length, by simp, by simp [Cells.reserve]⟩
  · obtain ⟨id, hid, hcell⟩ := h.empty k' hk'
    exact ⟨id, Le.reserve hk k' id hid, hkeep hcell⟩
  · obtain ⟨id, hid, hcell, hhanded⟩ := h.filled k' n hn
    exact ⟨id, Le.reserve hk k' id hid, hkeep hcell, hhanded⟩
  · rw [id?_reserve] at hk'
    split at hk'
    · next he => exact .inl (he ▸ List.mem_cons_self)
    · exact (h.only k' hk').imp_left (List.mem_cons_of_mem k)

/-- The cell of a target is filled when the target has been compiled. -/
theorem Holds.fill (h : s.Holds root o (k :: opened) table) (hk : k ∉ opened)
    (hid : s.id? k = some id) :
    ((s.fill id n).hand k id).Holds root o opened ((k, n) :: table) := by
  obtain ⟨id', hid', hcell⟩ := h.empty k List.mem_cons_self
  obtain rfl : id = id' := Option.some.inj (hid.symm.trans hid')
  have hlt : id < s.nodes.length := h.valid.id_lt hid
  have hnodes (i : Nat) : ((s.fill id n).hand k id).nodes[i]? =
      if id = i then some (some n) else s.nodes[i]? := by
    show (s.fill id n).nodes[i]? = _
    rw [Cells.fill, hcell, List.getElem?_set]
    simp [hlt]
  have hother {k' : Target} {i : Nat} {c : Option Node} (hne : k' ≠ k) (hi : s.id? k' = some i)
      (hc : s.nodes[i]? = some c) : ((s.fill id n).hand k id).nodes[i]? = some c := by
    have hids : id ≠ i := fun he => hne (h.valid.id_inj hi (he ▸ hid))
    rw [hnodes, if_neg hids, hc]
  refine ⟨(h.valid.fill hcell).hand hid, fun k' hk' => ?_, fun k' m hm => ?_, fun k' hk' => ?_⟩
  · obtain ⟨i, hi, hc⟩ := h.empty k' (List.mem_cons_of_mem k hk')
    exact ⟨i, hi, hother (fun he => hk (he ▸ hk')) hi hc⟩
  · by_cases he : k' = k
    · subst he
      obtain rfl : n = m := by simpa using hm
      exact ⟨id, hid, by rw [hnodes, if_pos rfl], List.mem_cons_self⟩
    · rw [List.lookup_cons, beq_eq_false_iff_ne.2 he] at hm
      obtain ⟨i, hi, hc, hhanded⟩ := h.filled k' m hm
      exact ⟨i, hi, hother he hi hc, List.mem_cons_of_mem _ hhanded⟩
  · rw [List.lookup_cons]
    by_cases he : k' = k
    · simp [he]
    · rw [beq_eq_false_iff_ne.2 he]
      exact (h.only k' hk').imp_left fun hmem => (List.mem_cons.1 hmem).resolve_left he

end Cells

/-! ## Steps go down -/

section Descends

variable {root : Json} {o : Options}

theorem namedIn_finite : {k | NamedIn root o k}.Finite := by
  let texts := ((Targets.documents root o).flatMap Json.references).map Target.reference
  let names := (Targets.formatSchemas o).map fun f => Target.format f.1
  refine Set.Finite.subset (List.finite_toSet (texts ++ names)) ?_
  rintro k ⟨ms, ⟨d, hd, hms⟩, hk⟩
  cases hk with
  | format _ hs =>
    exact List.mem_append_right _ (List.mem_map.2 ⟨_, Targets.mem_formatSchemas hs, rfl⟩)
  | reference _ hl =>
    refine List.mem_append_left _ (List.mem_map_of_mem (List.mem_flatMap.2 ⟨d, hd, ?_⟩))
    refine Json.references_of_inside hms ?_
    exact Json.mem_referencesMembers.2 (.inl (mem_of_lookup hl))

variable {s s' : Cells}

theorem Cells.vacant_le (h : s.Le s') : s'.vacant root o ≤ s.vacant root o := by
  refine Set.ncard_le_ncard ?_ (namedIn_finite.subset fun k hk => hk.1)
  rintro k ⟨hk, hnone⟩
  refine ⟨hk, Option.eq_none_iff_forall_ne_some.2 fun id hid => ?_⟩
  rw [h k id hid] at hnone
  cases hnone

theorem Cells.vacant_reserve {k : Target} (hk : NamedIn root o k) (hnone : s.id? k = none) :
    (s.reserve k).vacant root o < s.vacant root o := by
  refine Set.ncard_lt_ncard ?_ (namedIn_finite.subset fun k hk => hk.1)
  refine (Set.ssubset_iff_of_subset ?_).2 ⟨k, ⟨hk, hnone⟩, fun h => by simpa using h.2⟩
  rintro k' ⟨hk', hid⟩
  refine ⟨hk', ?_⟩
  rw [id?_reserve] at hid
  split at hid
  · cases hid
  · exact hid

theorem Descends.part {x y : Json} (h : s.Le s') (hy : y.size < x.size) :
    Descends root o (s', y) (s, x) := by
  have hle : s'.vacant root o ≤ s.vacant root o := Cells.vacant_le h
  rcases hle.lt_or_eq with hlt | heq
  · exact .left _ _ hlt
  · show Prod.Lex _ _ (s'.vacant root o, y.size) (s.vacant root o, x.size)
    rw [heq]
    exact .right _ hy

theorem Descends.target {x y : Json} {k : Target} (h : s.Le s') (hk : NamedIn root o k)
    (hnone : s'.id? k = none) : Descends root o (s'.reserve k, y) (s, x) :=
  .left _ _ ((Cells.vacant_reserve hk hnone).trans_le (Cells.vacant_le h))

end Descends

/-! ## Compiling with cells and without -/

namespace Reserving

variable {α β : Type}

theorem bind_ok {m : Reserving α} {f : α → Reserving β} {s s' : Cells} {a : α}
    (h : m s = some (.ok a, s')) : (m >>= f) s = f a s' := by
  show (m s >>= _) = _
  rw [h]
  rfl

theorem bind_error {m : Reserving α} {f : α → Reserving β} {s s' : Cells} {e : SchemaError}
    (h : m s = some (.error e, s')) : (m >>= f) s = some (.error e, s') := by
  show (m s >>= _) = _
  rw [h]
  rfl

end Reserving

/-- What a step with cells came to is what a step of a build came to: the same result, or the same
fault, and the cells go with the table. -/
def Matches (root : Json) (o : Options) (opened : List Target) (s : Cells) {α : Type}
    (r : Except SchemaError (α × Subroutines)) (r' : Option (Except SchemaError α × Cells)) :
    Prop :=
  ∃ s', r' = some (r.map Prod.fst, s') ∧ s'.Valid root o ∧ s.Le s' ∧
    ∀ a table', r = .ok (a, table') → s'.Holds root o opened table'

/-- A step with cells that are later ones than `s₀` does what a step of a build does. -/
def Reserves (root : Json) (o : Options) (opened : List Target) (s₀ : Cells) {α : Type}
    (m : Build α) (m' : Reserving α) : Prop :=
  ∀ table s, s.Holds root o opened table → s₀.Le s → Matches root o opened s (m table) (m' s)

/-- Steps of a build and the same steps with cells. -/
def Alike.reserving (root : Json) (o : Options) (opened : List Target) (s₀ : Cells) :
    Alike Build Reserving where
  results := True
  rel m m' := Reserves root o opened s₀ m m'
  pure h := by
    obtain rfl := h trivial
    intro table s hs _
    refine ⟨s, rfl, hs.valid, .refl s, fun b table' hb => ?_⟩
    rw [← (Build.pure_eq_ok.1 hb).2]
    exact hs
  bind := @fun α β x y f g hx hf table s hs hle => by
    obtain ⟨s₁, hy, hvalid, hle₁, hok⟩ := hx table s hs hle
    cases hm : x table with
    | error e =>
      rw [hm] at hy
      have hbind : (x >>= f) table = .error e := by
        show (x table >>= _) = _
        rw [hm]
        rfl
      rw [hbind]
      exact ⟨s₁, Reserving.bind_error hy, hvalid, hle₁, nofun⟩
    | ok r =>
      obtain ⟨a, mid⟩ := r
      rw [hm] at hy
      have hbind : (x >>= f) table = f a mid := by
        show (x table >>= _) = _
        rw [hm]
        rfl
      obtain ⟨s₂, hg, hvalid, hle₂, hok⟩ :=
        hf a a (fun _ => rfl) mid s₁ (hok a mid hm) (hle.trans hle₁)
      rw [hbind]
      exact ⟨s₂, (Reserving.bind_ok hy).trans hg, hvalid, hle₁.trans hle₂, hok⟩

theorem reserveTarget_run {root : Json} {o : Options} (nested : Path → Json → Reserving Node)
    (place : Path) (k : Target) (s : Cells) :
    reserveTarget root o nested place k s =
      match s.id? k, k.schema? root o with
      | some id, _ => some (.ok true, s.hand k id)
      | none, none => some (.ok false, s)
      | none, some y => (nested place y (s.reserve k)).map fun r =>
        (r.1.map fun _ => true, match r.1 with
          | .ok n => (r.2.fill s.nodes.length n).hand k s.nodes.length
          | .error _ => r.2) := by
  cases hid : s.id? k with
  | some id =>
    show ((match s.id? k with
      | some id => _
      | none => _ : Reserving Bool) s) = _
    rw [hid]
    rfl
  | none =>
    show ((match s.id? k with
      | some id => _
      | none => _ : Reserving Bool) s) = _
    rw [hid]
    cases k.schema? root o with
    | none => rfl
    | some y =>
      show (nested place y (s.reserve k) >>= _) = _
      dsimp only
      cases nested place y (s.reserve k) with
      | none => rfl
      | some r =>
        obtain ⟨r, s'⟩ := r
        cases r <;> rfl

theorem Json.size_lt_of_mem_parts {v w : Json} (h : w ∈ v.parts) : w.size < v.size := by
  have hitems : ∀ xs : List Json, w ∈ xs → w.size ≤ sizeItems xs := by
    intro xs hw
    induction xs with
    | nil => cases hw
    | cons x xs ih =>
      rw [sizeItems]
      rcases List.mem_cons.1 hw with rfl | hw
      · exact Nat.le_add_right _ _
      · exact (ih hw).trans (Nat.le_add_left _ _)
  have hmembers : ∀ ms : Members, w ∈ ms.map Prod.snd → w.size ≤ sizeMembers ms := by
    intro ms hw
    induction ms with
    | nil => cases hw
    | cons m ms ih =>
      obtain ⟨name, x⟩ := m
      rw [sizeMembers]
      rcases List.mem_cons.1 hw with rfl | hw
      · exact Nat.le_add_right _ _
      · exact (ih hw).trans (Nat.le_add_left _ _)
  cases v with
  | array xs => exact Nat.lt_succ_of_le (hitems xs h)
  | object ms => exact Nat.lt_succ_of_le (hmembers ms h)
  | _ => cases h

theorem Members.Position.size_lt {o : Options} {ms : Members} {x : Json} (h : ms.Position o x) :
    x.size < (Json.object ms).size := by
  obtain ⟨v, hv, rfl | hx⟩ := h.part
  · exact Json.size_lt_of_mem_parts hv
  · exact (Json.size_lt_of_mem_parts hx).trans (Json.size_lt_of_mem_parts hv)

/-- A target that is reached gets a cell and is compiled as it would be without cells, if its schema
is. -/
theorem reserveTarget_reserves {root : Json} {o : Options} {opened : List Target} {s₀ : Cells}
    {nested : Path → Json → Reserving Node} {place : Path} {ms : Members} {k : Target}
    (hms : Reachable root o (.object ms)) (hk : ms.Names o k)
    (hnested : ∀ y, k.schema? root o = some y → k ∉ opened → ∀ table s, s₀.Le s → s.id? k = none →
      (s.reserve k).Holds root o (k :: opened) table →
        Matches root o (k :: opened) (s.reserve k)
          (compileNode ⟨o, .of root o⟩ (k :: opened) place y table)
          (nested place y (s.reserve k))) :
    Reserves root o opened s₀ (compileTarget ⟨o, .of root o⟩ opened place k)
      (reserveTarget root o nested place k) := by
  intro table s hs hle
  have hhand {id : Nat} (hid : s.id? k = some id) : Matches root o opened s
      (.ok (true, table)) (reserveTarget root o nested place k s) := by
    rw [reserveTarget_run, hid]
    refine ⟨s.hand k id, rfl, hs.valid.hand hid, .refl s, ?_⟩
    rintro _ _ ⟨⟩
    exact hs.hand hid
  rw [compileTarget_run]
  split
  · next hopen =>
    obtain ⟨id, hid, -⟩ := hs.empty k hopen
    exact hhand hid
  · next hopen =>
    split
    · next n hn =>
      obtain ⟨id, hid, -⟩ := hs.filled k n hn
      exact hhand hid
    · next hn hy =>
      have hid : s.id? k = none := by
        by_contra hid
        simpa [hopen, hn] using hs.only k (Option.ne_none_iff_isSome.1 hid)
      have hschema : k.schema? root o = none := (Targets.lookup_of_names hms.held hk).symm.trans hy
      rw [reserveTarget_run, hid, hschema]
      refine ⟨s, rfl, hs.valid, .refl s, ?_⟩
      rintro _ _ ⟨⟩
      exact hs
    · next y hn hy =>
      have hid : s.id? k = none := by
        by_contra hid
        simpa [hopen, hn] using hs.only k (Option.ne_none_iff_isSome.1 hid)
      have hschema : k.schema? root o = some y :=
        (Targets.lookup_of_names hms.held hk).symm.trans hy
      have hreached : k.Reached root o := ⟨ms, hms, hk, by rw [hschema]; rfl⟩
      obtain ⟨s', hrun, hvalid, hle', hholds⟩ :=
        hnested y hschema hopen table s hle hid (hs.reserve hid hreached)
      rw [reserveTarget_run, hid, hschema]
      dsimp only
      rw [hrun]
      cases hc : compileNode ⟨o, .of root o⟩ (k :: opened) place y table with
      | error e => exact ⟨s', rfl, hvalid, (Cells.Le.reserve hid).trans hle', nofun⟩
      | ok r =>
        have hid' : s'.id? k = some s.nodes.length := hle' k _ (by simp)
        have hfill := (hholds r.1 r.2 hc).fill (n := r.1) hopen hid'
        refine ⟨_, rfl, hfill.valid, (Cells.Le.reserve hid).trans hle', ?_⟩
        rintro _ _ ⟨⟩
        exact hfill

/-- **Compiling with cells** does what compiling does, and always goes down. -/
theorem reserveNode_reserves {root : Json} {o : Options} (opened : List Target) (x : Json)
    (hx : Reachable root o x) (place : Path) (s₀ : Cells) :
    Reserves root o opened s₀ (compileNode ⟨o, .of root o⟩ opened place x)
      (reserveNode root o place x) := by
  revert hx place s₀
  induction opened, x using Plan.induction ⟨o, .of root o⟩ with
  | step opened x hparts htargets =>
  intro hx place s₀ table s hs _
  have hon : (Alike.reserving root o opened s).On (Plan.compiler ⟨o, .of root o⟩ opened)
      (reservingCompiler root o (onlyDown root o (s, x) (reserveNode root o)))
      (fun y => Reachable root o y ∧ y.size < x.size ∧ sizeOf y < sizeOf x)
      (fun k => ∃ ms : Members, x = .object ms ∧ ms.Names o k) := by
    constructor
    · intro y ⟨hy, hsize, hlt⟩ place table s' hs' hle'
      have hdown : Descends root o (s', y) (s, x) := .part hle' hsize
      show Matches root o opened s' _ (onlyDown root o (s, x) (reserveNode root o) place y s')
      rw [onlyDown_of_descends hdown]
      exact hparts y hlt hy place s table s' hs' hle'
    · rintro k ⟨ms, rfl, hk⟩ place
      refine reserveTarget_reserves hx hk fun y hy hopen table s' hle' hid hs' => ?_
      have hdown : Descends root o (s'.reserve k, y) (s, .object ms) :=
        .target hle' ⟨ms, hx.held, hk⟩ hid
      rw [onlyDown_of_descends hdown]
      have hlookup : (Targets.of root o).lookup k = some y :=
        (Targets.lookup_of_names hx.held hk).trans hy
      exact htargets k y hlookup hopen (.target hx hk hy) place _ table _ hs' (.refl _)
    · intro α r table s' hs' _
      refine ⟨s', ?_, hs'.valid, .refl s', fun a table' h => (Build.lift_eq_ok.1 h).2 ▸ hs'⟩
      cases r <;> rfl
  rw [compileNode_eq, reserveNode_eq]
  refine hon.schema place ?_ ?_ table s hs (.refl s)
  · rintro ms rfl y hy
    exact ⟨.position hx hy, hy.size_lt, hy.sizeOf_lt⟩
  · exact fun ms hms k hk => ⟨ms, hms, hk⟩

theorem Cells.Holds.start {root : Json} {o : Options} : Cells.Holds root o [] [] {} where
  valid := ⟨List.nodup_nil, rfl, nofun, List.nodup_nil, by simp, nofun⟩
  empty := nofun
  filled := nofun
  only := nofun

/-- Compiling a document with cells does what compiling it does. -/
theorem reserve_matches (o : Options) (schema : Json) :
    Matches schema o [] {} (compile o schema) (reserve o schema) :=
  reserveNode_reserves [] schema .root [] {} [] {} .start (.refl _)

theorem descends_wellFounded (root : Json) (o : Options) : WellFounded (Descends root o) :=
  InvImage.wf (fun a : Cells × Json => (a.1.vacant root o, a.2.size))
    (WellFounded.prod_lex wellFounded_lt wellFounded_lt)

/-- **Compiling ends**, however the references and the formats of the documents refer to each other.
Every nested step leaves fewer named targets without a cell, or as many and a smaller schema, since
otherwise there would be no result. So no target is compiled twice. -/
theorem reserve_ends (o : Options) (schema : Json) :
    WellFounded (Descends schema o) ∧
      ∃ s, reserve o schema = some ((compile o schema).map Prod.fst, s) ∧
        (s.ids.map Prod.fst).Nodup ∧ ∀ k ∈ s.ids.map Prod.fst, NamedIn schema o k := by
  obtain ⟨s, hrun, hvalid, -⟩ := reserve_matches o schema
  refine ⟨descends_wellFounded schema o, s, hrun, hvalid.nodup, ?_⟩
  refine List.forall_mem_map.2 fun e he => ?_
  obtain ⟨ms, hms, hk, -⟩ := hvalid.reached e he
  exact ⟨ms, hms.held, hk⟩

end JsonSchema
