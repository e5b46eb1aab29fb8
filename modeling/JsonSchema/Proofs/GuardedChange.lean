import JsonSchema.Node.Apply
import JsonSchema.Proofs.GuardedRun

/-!
# Mutating runs with one guard

A mutating run as one thread of state, like a guarded run that also hands on the value: the parts
of a value are changed in place, while the guard goes by their places. Checks that change nothing
take a step of a guarded run.

* `GuardedRun.guardedChange`: the guard around a run that changes the value;
* `Node.change`, `Check.change`: the run.
-/

namespace JsonSchema

namespace GuardedRun

/-- Change a value by a target while it is active at the path, unless it is already. -/
def guardedChange (r : GuardedRun) (k : Target) (path : Path) (v : Json)
    (body : GuardedRun → Option (Bool × Json × GuardedRun)) : Option (Bool × Json × GuardedRun) :=
  if (k, path) ∈ r.active then
    some (true, v, r.note (.question ⟨k, path, v, r.active, false, true⟩))
  else do
    let (passed, w, r') ← body (r.enter k path)
    return (passed, w, (r'.leave k path).note (.question ⟨k, path, v, r.active, true, passed⟩))

/-- Change a value on the side: the change stays, the reports do not. -/
def probeChange (r : GuardedRun) (change : GuardedRun → Option (Json × GuardedRun)) :
    Option (Bool × Json × GuardedRun) := do
  let (w, r') ← change r.suspend
  return (r'.quietSince r, w, r'.rewind r)

def watchChange (r : GuardedRun) (change : GuardedRun → Option (Json × GuardedRun)) :
    Option (Bool × Json × GuardedRun) := do
  let (w, r') ← change r
  return (r'.quietSince r, w, r')

end GuardedRun

mutual
/-- Run a node on the value at a path and change the value, opening at most `budget` entries
inside one another. -/
def Node.change (s : Scope) (m : Changes) (budget : Nat) (n : Node) (v : Json) (path : Path)
    (r : GuardedRun) : Option (Json × GuardedRun) :=
  match n with
  | .mk h head tail => do
    let r' := { r with declaredType := h.declaredType }
    let (v, r') ← (if h.acceptsType v then do
        let (v, r') ← head.foldlM
          (fun (v, r) c => c.change s m budget (.mk h head tail) v path r) (v, r')
        let r' := r'.reportMissing h v path
        if h.missing v = [] ∨ s.greedy = true then
          tail.foldlM (fun (v, r) c => c.change s m budget (.mk h head tail) v path r) (v, r')
        else some (v, r')
      else some (v, r'.report path .type (some v) (h.place "type")))
    return (v, { r' with declaredType := r.declaredType })
termination_by (budget, sizeOf n)
decreasing_by
  all_goals have := List.sizeOf_lt_of_mem ‹_ ∈ _›
  all_goals apply Prod.Lex.right
  all_goals simp only [Node.mk.sizeOf_spec]
  all_goals omega

def Check.change (s : Scope) (m : Changes) (budget : Nat) (n : Node) (c : Check) (v : Json)
    (path : Path) (r : GuardedRun) : Option (Json × GuardedRun) :=
  match c with
  | .dependencies entries => entries.foldlM (fun (v, r) e =>
      bif (v.get? e.1).isSome then e.2.change s m budget n v path r else some (v, r)) (v, r)
  | .closed declared place =>
    match v, m.filter with
    | .object ms, true => some (.object (ms.filter fun e => declared.has e.1), r)
    | v, _ => do return (v, ← (Check.closed declared place).run s budget n v path r)
  | .additional declared k =>
    match v with
    | .object ms => do
      let (ms, r) ← changeMembers (fun name w r =>
        bif declared.has name then some (w, r)
        else k.change s m budget w (path ++ [.name name]) (r.note (.nested n k))) ms r
      return (.object ms, r)
    | v => some (v, r)
  | .reference text place =>
    match s.subroutines.lookup (.reference text) with
    | none => some (v, r)
    | some k => do
      let (passed, v, r) ← r.guardedChange (.reference text) path v fun r =>
        spend budget fun rest _h => r.probeChange fun r => k.change s m rest v path r
      return (v, r.demand passed path .reference v place)
  | .schemaFormat name =>
    match s.subroutines.lookup (.format name) with
    | none => some (v, r)
    | some k => do
      let (_, v, r) ← r.guardedChange (.format name) path v fun r =>
        spend budget fun rest _h => r.watchChange fun r => k.change s m rest v path r
      return (v, r)
  | .items k =>
    match v with
    | .array xs => do
      let (xs, r) ← changeItems (fun i x r =>
        k.change s m budget x (path ++ [.index i]) (r.note (.nested n k))) 0 xs r
      return (.array xs, r)
    | v => some (v, r)
  | .patternProperties entries =>
    match v with
    | .object ms => do
      let (ms, r) ← changeMembers (fun name w r => entries.foldlM (fun (w, r) e =>
        bif e.1.accepts name then
          e.2.change s m budget w (path ++ [.name name]) (r.note (.nested n e.2))
        else some (w, r)) (w, r)) ms r
      return (.object ms, r)
    | v => some (v, r)
  | .allOf ns =>
    ns.foldlM (fun (v, r) k => k.change s m budget v path (r.note (.nested n k))) (v, r)
  | .tuple ns =>
    match v with
    | .array xs => do
      let (xs, r) ← ns.zipIdx.attach.foldlM (fun (xs, r) ⟨(k, i), _⟩ =>
        match xs[i]? with
        | some x => do
          let (x, r) ← k.change s m budget x (path ++ [.index i]) (r.note (.nested n k))
          return (xs.set i x, r)
        | none =>
          match if xs.length = i then k.heading.filling? m else none with
          | some x => do
            let (x, r) ← k.change s m budget x (path ++ [.index i]) (r.note (.nested n k))
            return (xs ++ [x], r)
          | none => some (xs, r.checkAbsent k.heading (path ++ [.index i]))) (xs, r)
      return (.array xs, r)
    | v => some (v, r)
  | .properties entries skipNull =>
    match v with
    | .object ms => do
      let (ms, r) ← entries.foldlM (fun (ms, r) e =>
        match ms.lookup e.1 with
        | some w => do
          let (w, r) ← e.2.change s m budget w (path ++ [.name e.1]) (r.note (.nested n e.2))
          return (Members.replace ms e.1 w, r)
        | none =>
          match e.2.heading.filling? m with
          | some w => do
            let (w, r) ← e.2.change s m budget w (path ++ [.name e.1]) (r.note (.nested n e.2))
            return (ms ++ [(e.1, w)], r)
          | none => some (ms, r.checkAbsent e.2.heading (path ++ [.name e.1]))) (ms, r)
      return (.object ms, r)
    | v => do return (v, ← (Check.properties entries skipNull).run s budget n v path r)
  | .additionalItems limit k =>
    match v with
    | .array xs => do
      let (xs, r) ← changeItems (fun i x r =>
        if i < limit then some (x, r)
        else k.change s m budget x (path ++ [.index i]) (r.note (.nested n k))) 0 xs r
      return (.array xs, r)
    | v => some (v, r)
  | .rule r' place => do return (v, ← (Check.rule r' place).run s budget n v path r)
  | .negation k place => do return (v, ← (Check.negation k place).run s budget n v path r)
  | .anyOf ns place => do return (v, ← (Check.anyOf ns place).run s budget n v path r)
  | .oneOf ns place => do return (v, ← (Check.oneOf ns place).run s budget n v path r)
termination_by (budget, sizeOf c)
decreasing_by
  all_goals try exact Prod.Lex.left _ _ _h
  all_goals apply Prod.Lex.right
  all_goals simp only [Check.dependencies.sizeOf_spec, Check.additional.sizeOf_spec,
    Check.items.sizeOf_spec, Check.patternProperties.sizeOf_spec, Check.allOf.sizeOf_spec,
    Check.tuple.sizeOf_spec, Check.properties.sizeOf_spec, Check.additionalItems.sizeOf_spec]
  · exact Nat.lt_of_lt_of_le (mem_lt ‹_ ∈ entries›) (by omega)
  · omega
  · omega
  · exact Nat.lt_of_lt_of_le (mem_lt ‹_ ∈ entries›) (by omega)
  · exact Nat.lt_of_lt_of_le (List.sizeOf_lt_of_mem ‹_ ∈ ns›) (by omega)
  · exact Nat.lt_of_lt_of_le (sizeOf_fst_lt ‹_›) (by omega)
  · exact Nat.lt_of_lt_of_le (sizeOf_fst_lt ‹_›) (by omega)
  · exact Nat.lt_of_lt_of_le (mem_lt ‹_ ∈ entries›) (by omega)
  · exact Nat.lt_of_lt_of_le (mem_lt ‹_ ∈ entries›) (by omega)
  · omega

def Dependency.change (s : Scope) (m : Changes) (budget : Nat) (n : Node) (d : Dependency)
    (v : Json) (path : Path) (r : GuardedRun) : Option (Json × GuardedRun) :=
  match d with
  | .names names place =>
    some (v, r.demand (names.all fun name => (v.get? name).isSome) path .dependencies v place)
  | .schema k => k.change s m budget v path (r.note (.nested n k))
termination_by (budget, sizeOf d)
decreasing_by
  apply Prod.Lex.right
  simp only [Dependency.schema.sizeOf_spec]
  omega
end

end JsonSchema
