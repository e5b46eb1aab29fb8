import JsonSchema.Node.Check

/-!
# Changing values

A mutating run checks a value and changes it on the way: it removes the members that
`additionalProperties: false` rejects, and it fills in the defaults of absent members and
positions. Checks that only look at a value, and the schemas under `not`, `anyOf` and `oneOf`,
change nothing. A default may hold the very place it is filled into again, so a run goes down at
most a given number of levels and has no result beyond them.

* `Changes`: what a run may change;
* `Node.apply`, `Check.apply`: the run, with the value and the tally it leaves.
-/

namespace JsonSchema

structure Changes where
  /-- Remove rejected members. -/
  filter : Bool
  /-- Fill in defaults. -/
  fill : Bool

/-- The default that fills in for an absent value. -/
def Heading.filling? (h : Heading) (m : Changes) : Option Json :=
  if m.fill then h.default else none

/-! ## Walking over parts -/

def changeMembers {σ : Type} (f : String → Json → σ → Option (Json × σ)) :
    Members → σ → Option (Members × σ)
  | [], t => some ([], t)
  | (name, v) :: ms, t => do
    let (v, t) ← f name v t
    let (ms, t) ← changeMembers f ms t
    return ((name, v) :: ms, t)

/-- Change every item in turn, the first one having the given index. -/
def changeItems {σ : Type} (f : Nat → Json → σ → Option (Json × σ)) :
    Nat → List Json → σ → Option (List Json × σ)
  | _, [], t => some ([], t)
  | i, x :: xs, t => do
    let (x, t) ← f i x t
    let (xs, t) ← changeItems f (i + 1) xs t
    return (x :: xs, t)

/-! ## Runs -/

open Scope (weight_part weight_down weight_enter)

mutual
/-- Check and change a present value by a node, going down at most `depth` levels. -/
def Node.apply (s : Scope) (m : Changes) (depth : Nat) (n : Node) (v : Json) (p : Site)
    (t : Tally) : Option (Json × Tally) :=
  match n with
  | .mk h head tail =>
    if h.acceptsType v then do
      let (v, t) ← head.foldlM (fun (v, t) c => c.apply s m depth h v p t) (v, t)
      let t := h.reportMissing v p t
      if h.missing v = [] ∨ s.greedy = true then
        tail.foldlM (fun (v, t) c => c.apply s m depth h v p t) (v, t)
      else return (v, t)
    else return (v, h.reportType v p t)
termination_by s.weight depth p (sizeOf n)
decreasing_by
  all_goals refine weight_part ?_
  all_goals have := List.sizeOf_lt_of_mem ‹_ ∈ _›
  all_goals simp only [Node.mk.sizeOf_spec]
  all_goals omega

/-- Run one check of the node with the given heading, changing the value. -/
def Check.apply (s : Scope) (m : Changes) (depth : Nat) (h : Heading) (c : Check) (v : Json)
    (p : Site) (t : Tally) : Option (Json × Tally) :=
  match c with
  | .dependencies entries => entries.foldlM (fun (v, t) e =>
      bif (v.get? e.1).isSome then e.2.apply s m depth h v p t else some (v, t)) (v, t)
  | .closed declared place =>
    match v, m.filter with
    | .object ms, true => some (.object (ms.filter fun e => declared.has e.1), t)
    | v, _ => some (v, (Check.closed declared place).check s h v p t)
  | .additional declared n =>
    match v, depth with
    | .object ms, depth + 1 => do
      let (ms, t) ← changeMembers (fun name w t =>
        bif declared.has name then some (w, t)
        else n.apply s m depth w (p.down (.name name)) t) ms t
      return (.object ms, t)
    | .object _, 0 => none
    | v, _ => some (v, t)
  | .reference text place =>
    match (s.subroutines.lookup (.reference text)).attach with
    | none => some (v, t)
    | some ⟨n, _⟩ =>
      if _h : .reference text ∈ p.entered then some (v, t)
      else do
        let (v, inner) ← n.apply s m depth v (p.enter (.reference text)) (Tally.start .off)
        return (v, h.demand (inner.count == 0) .reference v place p t)
  | .schemaFormat name =>
    match (s.subroutines.lookup (.format name)).attach with
    | none => some (v, t)
    | some ⟨n, _⟩ =>
      if _h : .format name ∈ p.entered then some (v, t)
      else n.apply s m depth v (p.enter (.format name)) t
  | .items n =>
    match v, depth with
    | .array xs, depth + 1 => do
      let (xs, t) ← changeItems (fun i x t => n.apply s m depth x (p.down (.index i)) t) 0 xs t
      return (.array xs, t)
    | .array _, 0 => none
    | v, _ => some (v, t)
  | .patternProperties entries =>
    match v, depth with
    | .object ms, depth + 1 => do
      let (ms, t) ← changeMembers (fun name w t => entries.foldlM (fun (w, t) e =>
        bif e.1.accepts name then e.2.apply s m depth w (p.down (.name name)) t
        else some (w, t)) (w, t)) ms t
      return (.object ms, t)
    | .object _, 0 => none
    | v, _ => some (v, t)
  | .allOf ns => ns.foldlM (fun (v, t) n => n.apply s m depth v p t) (v, t)
  | .tuple ns =>
    match v, depth with
    | .array xs, depth + 1 => do
      let (xs, t) ← ns.zipIdx.attach.foldlM (fun (xs, t) ⟨(n, i), _⟩ =>
        match xs[i]? with
        | some x => do
          let (x, t) ← n.apply s m depth x (p.down (.index i)) t
          return (xs.set i x, t)
        | none =>
          match if xs.length = i then n.heading.filling? m else none with
          | some x => do
            let (x, t) ← n.apply s m depth x (p.down (.index i)) t
            return (xs ++ [x], t)
          | none => some (xs, n.heading.checkAbsent (p.down (.index i)) t)) (xs, t)
      return (.array xs, t)
    | .array _, 0 => none
    | v, _ => some (v, t)
  | .properties entries skipNull =>
    match v, depth with
    | .object ms, depth + 1 => do
      let (ms, t) ← entries.foldlM (fun (ms, t) e =>
        match ms.lookup e.1 with
        | some w => do
          let (w, t) ← e.2.apply s m depth w (p.down (.name e.1)) t
          return (Members.replace ms e.1 w, t)
        | none =>
          match e.2.heading.filling? m with
          | some w => do
            let (w, t) ← e.2.apply s m depth w (p.down (.name e.1)) t
            return (ms ++ [(e.1, w)], t)
          | none => some (ms, e.2.heading.checkAbsent (p.down (.name e.1)) t)) (ms, t)
      return (.object ms, t)
    | .object _, 0 => none
    | v, _ => some (v, (Check.properties entries skipNull).check s h v p t)
  | .additionalItems limit n =>
    match v, depth with
    | .array xs, depth + 1 => do
      let (xs, t) ← changeItems (fun i x t =>
        if i < limit then some (x, t) else n.apply s m depth x (p.down (.index i)) t) 0 xs t
      return (.array xs, t)
    | .array _, 0 => none
    | v, _ => some (v, t)
  | .rule r place => some (v, h.checkRule r place v p t)
  | .negation n place => some (v, (Check.negation n place).check s h v p t)
  | .anyOf ns place => some (v, (Check.anyOf ns place).check s h v p t)
  | .oneOf ns place => some (v, (Check.oneOf ns place).check s h v p t)
termination_by s.weight depth p (sizeOf c)
decreasing_by
  all_goals simp only [Check.dependencies.sizeOf_spec, Check.additional.sizeOf_spec,
    Check.reference.sizeOf_spec, Check.schemaFormat.sizeOf_spec, Check.items.sizeOf_spec,
    Check.patternProperties.sizeOf_spec, Check.allOf.sizeOf_spec, Check.tuple.sizeOf_spec,
    Check.properties.sizeOf_spec, Check.additionalItems.sizeOf_spec]
  · exact weight_part (Nat.lt_of_lt_of_le (mem_lt ‹_ ∈ entries›) (by omega))
  · exact weight_down (Nat.lt_succ_self _) (by omega)
  · exact weight_enter ‹_› _h
  · exact weight_enter ‹_› _h
  · exact weight_down (Nat.lt_succ_self _) (by omega)
  · exact weight_down (Nat.lt_succ_self _) (Nat.lt_of_lt_of_le (mem_lt ‹_ ∈ entries›) (by omega))
  · exact weight_part (Nat.lt_of_lt_of_le (List.sizeOf_lt_of_mem ‹_ ∈ ns›) (by omega))
  · exact weight_down (Nat.lt_succ_self _) (Nat.lt_of_lt_of_le (sizeOf_fst_lt ‹_›) (by omega))
  · exact weight_down (Nat.lt_succ_self _) (Nat.lt_of_lt_of_le (sizeOf_fst_lt ‹_›) (by omega))
  · exact weight_down (Nat.lt_succ_self _) (Nat.lt_of_lt_of_le (mem_lt ‹_ ∈ entries›) (by omega))
  · exact weight_down (Nat.lt_succ_self _) (Nat.lt_of_lt_of_le (mem_lt ‹_ ∈ entries›) (by omega))
  · exact weight_down (Nat.lt_succ_self _) (by omega)

def Dependency.apply (s : Scope) (m : Changes) (depth : Nat) (h : Heading) (d : Dependency)
    (v : Json) (p : Site) (t : Tally) : Option (Json × Tally) :=
  match d with
  | .names names place => some (v, (Dependency.names names place).check s h v p t)
  | .schema n => n.apply s m depth v p t
termination_by s.weight depth p (sizeOf d)
decreasing_by
  simp only [Dependency.schema.sizeOf_spec]
  exact weight_part (by omega)
end

end JsonSchema
