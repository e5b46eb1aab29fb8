import JsonSchema.Proofs.DistinctNames
import JsonSchema.Proofs.Referring
import JsonSchema.Proofs.Reserving

/-!
# The cells of a build

When a build has ended, each target that it reached has one cell, which was filled once with the
node of the target's schema. The checks of all nodes have been given ids of such cells, so looking
up a cell during a run never fails.

* `Cells.Faithful`: what the cells of a build are;
* `Options.build_faithful`: every build ends with such cells.
-/

namespace JsonSchema

/-- What the cells of a build are when it has ended. -/
structure Cells.Faithful (o : Options) (schema : Json) (w : Validator) (s : Cells) : Prop where
  /-- Every cell has a node. -/
  filled : ∀ id < s.nodes.length, ∃ n, s.nodes[id]? = some (some n)
  /-- The node was put there once. -/
  once : s.fills.Perm (List.range s.nodes.length)
  /-- The checks of all nodes were given the ids of cells. -/
  given : ∀ n, n = w.root ∨ some n ∈ s.nodes → ∀ k, n.Refers k →
    ∃ id < s.nodes.length, (k, id) ∈ s.handed
  /-- Checks were given the same id if they ask for the same target, and only then. -/
  same : ∀ k id, (k, id) ∈ s.handed → ∀ k' id', (k', id') ∈ s.handed → (id = id' ↔ k = k')
  /-- There are as many cells as targets with a schema that are reached. -/
  count : s.nodes.length = {k : Target | k.Reached schema o}.ncard
  /-- The cell that checks were given for a target has what its schema compiles to. -/
  compiled : ∀ k id, (k, id) ∈ s.handed → ∃ x n, k.schema? schema o = some x ∧
    s.nodes[id]? = some (some n) ∧ Plan.Settled ⟨o, .of schema o⟩ w.subroutines x n
  /-- Runs find in the table what the cells have. -/
  table : ∀ k, w.subroutines.lookup k = (s.id? k).bind fun id => (s.nodes[id]?).join

namespace Cells.Holds

variable {o : Options} {schema : Json} {w : Validator} {s : Cells} {T : Subroutines}

/-- When no target is open, the cell of a target has what the table has. -/
theorem cell (h : s.Holds schema o [] T) {k : Target} {id : Nat} (hid : s.id? k = some id) :
    ∃ n, T.lookup k = some n ∧ s.nodes[id]? = some (some n) ∧ (k, id) ∈ s.handed := by
  have hT : (T.lookup k).isSome :=
    (h.only k (by rw [hid]; rfl)).resolve_left List.not_mem_nil
  obtain ⟨n, hn⟩ := Option.isSome_iff_exists.1 hT
  obtain ⟨id', hid', hcell⟩ := h.filled k n hn
  obtain rfl : id = id' := Option.some.inj (hid.symm.trans hid')
  exact ⟨n, hn, hcell⟩

theorem exists_id? (h : s.Holds schema o [] T) {id : Nat} (hid : id < s.nodes.length) :
    ∃ k, s.id? k = some id := by
  have hmem : id ∈ s.ids.map Prod.snd := by
    rw [h.valid.ids, List.mem_reverse, List.mem_range]
    exact hid
  obtain ⟨⟨k, _⟩, he, rfl⟩ := List.mem_map.1 hmem
  exact ⟨k, lookup_eq_some_of_mem h.valid.nodup he⟩

theorem reached_iff (h : s.Holds schema o [] T)
    (hT : ∀ k : Target, k.Reached schema o → (T.lookup k).isSome) (k : Target) :
    k.Reached schema o ↔ k ∈ s.ids.map Prod.fst := by
  constructor
  · intro hk
    obtain ⟨n, hn⟩ := Option.isSome_iff_exists.1 (hT k hk)
    obtain ⟨id, hid, -⟩ := h.filled k n hn
    exact List.mem_map_of_mem (mem_of_lookup hid)
  · intro hk
    obtain ⟨e, he, rfl⟩ := List.mem_map.1 hk
    exact h.valid.reached e he

theorem exists_node (h : s.Holds schema o [] T) {id : Nat} (hid : id < s.nodes.length) :
    ∃ n, s.nodes[id]? = some (some n) := by
  obtain ⟨k, hk⟩ := h.exists_id? hid
  obtain ⟨n, -, hn, -⟩ := h.cell hk
  exact ⟨n, hn⟩

theorem fills_perm (h : s.Holds schema o [] T) : s.fills.Perm (List.range s.nodes.length) := by
  refine (List.perm_ext_iff_of_nodup h.valid.fills_nodup List.nodup_range).2 fun id => ?_
  rw [h.valid.mem_fills, List.mem_range]
  constructor
  · rintro ⟨n, hn⟩
    exact (List.getElem?_eq_some_iff.1 hn).1
  · exact h.exists_node

/-- As many cells as targets are reached, since each of these has one. -/
theorem length_nodes (h : s.Holds schema o [] T)
    (hT : ∀ k : Target, k.Reached schema o → (T.lookup k).isSome) :
    s.nodes.length = {k : Target | k.Reached schema o}.ncard := by
  have hset : {k : Target | k.Reached schema o} =
      ((s.ids.map Prod.fst).toFinset : Set Target) := by
    ext k
    simpa using h.reached_iff hT k
  rw [hset, Set.ncard_coe_finset, List.toFinset_card_of_nodup h.valid.nodup, List.length_map]
  simpa using (congrArg List.length h.valid.ids).symm

theorem lookup_eq (h : s.Holds schema o [] T) (k : Target) :
    T.lookup k = (s.id? k).bind fun id => (s.nodes[id]?).join := by
  cases hid : s.id? k with
  | some id =>
    obtain ⟨n, hn, hcell, -⟩ := h.cell hid
    simp [hn, hcell]
  | none =>
    refine Option.eq_none_iff_forall_ne_some.2 fun n hn => ?_
    obtain ⟨id, hid', -⟩ := h.filled k n hn
    rw [hid] at hid'
    cases hid'

/-- The node of a cell is that of the schema of the cell's target. -/
theorem settled (h : s.Holds schema o [] T) {n : Node}
    (hc : Plan.Complete ⟨o, .of schema o⟩ schema n T) {k : Target} {id : Nat}
    (hid : s.id? k = some id) : ∃ x m, k.schema? schema o = some x ∧
      s.nodes[id]? = some (some m) ∧ Plan.Settled ⟨o, .of schema o⟩ T x m := by
  obtain ⟨m, hm, hcell, -⟩ := h.cell hid
  obtain ⟨x, hx, hsettled⟩ := hc.entry _ (mem_of_lookup hm)
  obtain ⟨ms, hms, hnames, -⟩ := h.valid.reached _ (mem_of_lookup hid)
  exact ⟨x, m, (Targets.lookup_of_names hms.held hnames).symm.trans hx, hcell, hsettled⟩

/-- Every target that a node of a schema asks for has a cell, the id of which was handed out. -/
theorem given (h : s.Holds schema o [] T) {x : Json} {n : Node}
    (hn : Plan.Settled ⟨o, .of schema o⟩ T x n) {k : Target} (hk : n.Refers k) :
    ∃ id < s.nodes.length, (k, id) ∈ s.handed := by
  obtain ⟨m, hm⟩ := Option.isSome_iff_exists.1 (hn.lookup_of_refers hk)
  obtain ⟨id, hid, -, hhanded⟩ := h.filled k m hm
  exact ⟨id, h.valid.id_lt hid, hhanded⟩

end Cells.Holds

theorem Cells.Valid.handed_iff {o : Options} {schema : Json} {s : Cells} (h : s.Valid schema o)
    {k k' : Target} {id id' : Nat} (hk : (k, id) ∈ s.handed) (hk' : (k', id') ∈ s.handed) :
    id = id' ↔ k = k' := by
  have hid := h.handed _ hk
  have hid' := h.handed _ hk'
  constructor
  · rintro rfl
    exact h.id_inj hid hid'
  · rintro rfl
    exact Option.some.inj (hid.symm.trans hid')

/-- The table of a build has every target with a schema that is reached. -/
theorem Plan.Complete.lookup_of_reached {o : Options} {root : Json} {n : Node} {T : Subroutines}
    (h : Plan.Complete ⟨o, .of root o⟩ root n T) {k : Target} (hk : k.Reached root o) :
    (T.lookup k).isSome := by
  obtain ⟨ms, hms, hk, hschema⟩ := hk
  obtain ⟨m, hm⟩ := h.settled hms
  refine (hm.below.2 k hk).resolve_right fun hnone => ?_
  rw [← Targets.lookup_of_names hms.held hk, hnone] at hschema
  cases hschema

/-- **Every build ends with faithful cells.** -/
theorem Options.build_faithful {o : Options} {schema : Json} {w : Validator}
    (h : o.build schema = .ok w) :
    ∃ s, reserve o schema = some (.ok w.root, s) ∧ s.Faithful o schema w := by
  have hc : compile o schema = .ok (w.root, w.subroutines) := (build_eq_ok.1 h).1
  have hcomplete := compile_complete hc
  obtain ⟨s, hrun, hvalid, -, hholds⟩ := reserve_matches o schema
  have hs : s.Holds schema o [] w.subroutines := hholds _ _ hc
  rw [hc] at hrun
  refine ⟨s, hrun, {
    filled := fun id => hs.exists_node
    once := hs.fills_perm
    given := ?_
    same := fun k id hk k' id' => hvalid.handed_iff hk
    count := hs.length_nodes fun k => hcomplete.lookup_of_reached
    compiled := fun k id hk => hs.settled hcomplete (hvalid.handed _ hk)
    table := hs.lookup_eq }⟩
  rintro n (rfl | hn) k hk
  · exact hs.given hcomplete.root hk
  · obtain ⟨id, hid⟩ := List.mem_iff_getElem?.1 hn
    obtain ⟨k', hk'⟩ := hs.exists_id? (List.getElem?_eq_some_iff.1 hid).1
    obtain ⟨x, m, -, hcell, hx⟩ := hs.settled hcomplete hk'
    obtain rfl : n = m := by simpa [hid] using hcell
    exact hs.given hx hk

theorem Options.build_faithful_looped :
    ∃ w s, build {} (looped (.number (.integer 1))) = .ok w ∧
      w.subroutines.map Prod.fst =
        [.reference "#/definitions/a", .reference "#/definitions/b"] ∧
      reserve {} (looped (.number (.integer 1))) = some (.ok w.root, s) ∧
        s.Faithful {} (looped (.number (.integer 1))) w := by
  have hkeys : (build {} (looped (.number (.integer 1)))).toOption.map
      (fun w => w.subroutines.map Prod.fst) =
        some [.reference "#/definitions/a", .reference "#/definitions/b"] := by decide +kernel
  cases h : build {} (looped (.number (.integer 1))) with
  | error e =>
    rw [h] at hkeys
    cases hkeys
  | ok w =>
    rw [h] at hkeys
    obtain ⟨s, hs⟩ := build_faithful h
    exact ⟨w, s, rfl, Option.some.inj hkeys, hs⟩

end JsonSchema
