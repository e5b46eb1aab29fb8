import JsonSchema.Node.Basic

/-!
# Parts of values and of nodes

The values right below a value, and the nodes right below a node. A check runs some of its nodes
on the value itself and the others on parts of the value.

* `Json.parts`: items of an array, values of an object;
* `Json.height`: how far parts of parts go down;
* `Check.nodesHere`, `Check.nodesBelow`: the nodes of a check, by the values they are run on;
* `Node.Within`: a node occurs in another one.
-/

namespace JsonSchema

/-! ## Parts of values -/

namespace Json

def parts : Json → List Json
  | array xs => xs
  | object ms => ms.map Prod.snd
  | _ => []

theorem sizeOf_lt_of_mem_parts {v w : Json} (h : w ∈ v.parts) : sizeOf w < sizeOf v := by
  cases v with
  | array xs =>
    have hw : sizeOf w < sizeOf xs := List.sizeOf_lt_of_mem h
    simp only [array.sizeOf_spec]
    omega
  | object ms =>
    obtain ⟨m, hm, rfl⟩ := List.mem_map.mp h
    have := mem_lt hm
    simp only [object.sizeOf_spec]
    omega
  | _ => simp [parts] at h

/-! ## Height -/

mutual
/-- The number of values inside one another, from a value down. -/
def height : Json → Nat
  | array xs => heightItems xs + 1
  | object ms => heightMembers ms + 1
  | _ => 1

def heightItems : List Json → Nat
  | [] => 0
  | x :: xs => max x.height (heightItems xs)

def heightMembers : Members → Nat
  | [] => 0
  | (_, v) :: ms => max v.height (heightMembers ms)
end

theorem heightItems_le_iff {xs : List Json} {bound : Nat} :
    heightItems xs ≤ bound ↔ ∀ x ∈ xs, x.height ≤ bound := by
  induction xs with
  | nil => simp [heightItems]
  | cons x xs ih => rw [heightItems, Nat.max_le, ih, List.forall_mem_cons]

theorem heightMembers_le_iff {ms : Members} {bound : Nat} :
    heightMembers ms ≤ bound ↔ ∀ m ∈ ms, m.2.height ≤ bound := by
  induction ms with
  | nil => simp [heightMembers]
  | cons m ms ih =>
    obtain ⟨name, v⟩ := m
    rw [heightMembers, Nat.max_le, ih, List.forall_mem_cons]

theorem height_lt_of_mem_parts {v w : Json} (h : w ∈ v.parts) : w.height < v.height := by
  cases v with
  | array xs =>
    rw [height]
    exact Nat.lt_succ_of_le (heightItems_le_iff.mp (Nat.le_refl _) w h)
  | object ms =>
    obtain ⟨m, hm, rfl⟩ := List.mem_map.mp h
    rw [height]
    exact Nat.lt_succ_of_le (heightMembers_le_iff.mp (Nat.le_refl _) m hm)
  | _ => simp [parts] at h

theorem height_pos (v : Json) : 0 < v.height := by cases v <;> simp [height]

mutual
theorem height_le_size (v : Json) : v.height ≤ v.size := by
  cases v with
  | array xs =>
    have := heightItems_le_size xs
    rw [height, size]
    omega
  | object ms =>
    have := heightMembers_le_size ms
    rw [height, size]
    omega
  | _ => simp [height, size]

theorem heightItems_le_size (xs : List Json) : heightItems xs ≤ sizeItems xs := by
  cases xs with
  | nil => simp [heightItems]
  | cons x xs =>
    have hx := x.height_le_size
    have hxs := heightItems_le_size xs
    rw [heightItems, sizeItems]
    omega

theorem heightMembers_le_size (ms : Members) : heightMembers ms ≤ sizeMembers ms := by
  cases ms with
  | nil => simp [heightMembers]
  | cons m ms =>
    obtain ⟨name, v⟩ := m
    have hv := v.height_le_size
    have hms := heightMembers_le_size ms
    rw [heightMembers, sizeMembers]
    omega
end

end Json

/-! ## Parts of nodes -/

namespace Check

/-- The nodes that a check runs on the value itself, targets apart. -/
def nodesHere : Check → List Node
  | dependencies entries => entries.filterMap fun e =>
    match e.2 with
    | .names .. => none
    | .schema n => some n
  | negation n _ => [n]
  | allOf ns | anyOf ns _ | oneOf ns _ => ns
  | _ => []

/-- The nodes that a check runs on parts of the value. -/
def nodesBelow : Check → List Node
  | additional _ n | items n | additionalItems _ n => [n]
  | patternProperties entries => entries.map Prod.snd
  | tuple ns => ns
  | properties entries _ => entries.map Prod.snd
  | _ => []

def nodes (c : Check) : List Node := c.nodesHere ++ c.nodesBelow

/-- The target that a check runs on the value itself. -/
def target? : Check → Option Target
  | reference text _ => some (.reference text)
  | schemaFormat name => some (.format name)
  | _ => none

theorem sizeOf_lt_of_mem_nodes {c : Check} {n : Node} (h : n ∈ c.nodes) : sizeOf n < sizeOf c := by
  cases c with
  | dependencies entries =>
    simp only [nodes, nodesHere, nodesBelow, List.append_nil, List.mem_filterMap] at h
    obtain ⟨⟨name, d⟩, he, hd⟩ := h
    cases d with
    | names => simp at hd
    | schema m =>
      have := mem_lt he
      simp only [Option.some.injEq] at hd
      subst hd
      simp only [Dependency.schema.sizeOf_spec] at this
      simp only [dependencies.sizeOf_spec]
      omega
  | allOf ns | anyOf ns | oneOf ns | tuple ns =>
    have := List.sizeOf_lt_of_mem (by simpa [nodes, nodesHere, nodesBelow] using h)
    simp
    omega
  | patternProperties entries | properties entries =>
    simp only [nodes, nodesHere, nodesBelow, List.nil_append, List.mem_map] at h
    obtain ⟨e, he, rfl⟩ := h
    have := mem_lt he
    simp
    omega
  | negation m | additional _ m | items m | additionalItems _ m =>
    simp only [nodes, nodesHere, nodesBelow, List.nil_append, List.append_nil,
      List.mem_singleton] at h
    subst h
    simp <;> omega
  | _ => simp [nodes, nodesHere, nodesBelow] at h

end Check

namespace Node

/-- The checks of a node, in their order. -/
def checks : Node → List Check
  | mk _ head tail => head ++ tail

theorem sizeOf_lt_of_mem_checks {n : Node} {c : Check} (h : c ∈ n.checks) :
    sizeOf c < sizeOf n := by
  obtain ⟨heading, head, tail⟩ := n
  simp only [mk.sizeOf_spec]
  rcases List.mem_append.mp h with h | h
  · have := List.sizeOf_lt_of_mem h
    omega
  · have := List.sizeOf_lt_of_mem h
    omega

/-- A check of the parent holds the child. -/
def PartOf (child parent : Node) : Prop := ∃ c ∈ parent.checks, child ∈ c.nodes

theorem PartOf.sizeOf_lt {child parent : Node} (h : child.PartOf parent) :
    sizeOf child < sizeOf parent := by
  obtain ⟨c, hc, hn⟩ := h
  exact Nat.lt_trans (Check.sizeOf_lt_of_mem_nodes hn) (sizeOf_lt_of_mem_checks hc)

/-- There is no endless way down from a node to its parts. -/
theorem partOf_wellFounded : WellFounded PartOf :=
  Subrelation.wf PartOf.sizeOf_lt (measure fun n : Node => sizeOf n).wf

/-- A node occurs in another one, at any depth. -/
inductive Within (m : Node) : Node → Prop
  | refl : Within m m
  | step {n : Node} {c : Check} {k : Node} :
      c ∈ n.checks → k ∈ c.nodes → Within m k → Within m n

end Node

end JsonSchema
