import JsonSchema.Node.Basic

/-!
# Checking values

A run walks a node over a value and reports to a tally. A target that is entered again on the same
value counts as passed there, so cycles of references end: each step goes to a smaller value, or to
a target not yet entered on this value, or to a smaller part of the node.

* `Site`: where a run stands, the path of the value and the targets entered on it;
* `Node.check`, `Check.check`: the run;
* `Node.accepts`: whether a run reports nothing.
-/

namespace JsonSchema

/-! ## Where a run stands -/

structure Site where
  path : Path := []
  /-- The targets that are being checked on the value at the path. -/
  entered : List Target := []

namespace Site

/-- Go down to a part of the value, on which no target has been entered. -/
def down (p : Site) (s : Segment) : Site := ⟨p.path ++ [s], []⟩

def enter (p : Site) (k : Target) : Site := { p with entered := k :: p.entered }

end Site

/-- What a run needs to know: the compiled targets, and whether missing members stop a node. -/
structure Scope where
  subroutines : Subroutines
  greedy : Bool

/-! ## The weight of a step -/

namespace Scope

/-- The weight of a step at a site, `level` levels above the ground, with a part of a node of the
given size. A level weighs as much as all targets together, and a target as much as the whole
table, so every step of a run is lighter than the one that takes it. -/
noncomputable def weight (s : Scope) (level : Nat) (p : Site) (size : Nat) : Nat :=
  (level * s.subroutines.length + Subroutines.openCount s.subroutines p.entered)
    * sizeOf s.subroutines + size

variable {s : Scope} {level level' size size' : Nat} {p p' : Site}

theorem weight_part (h : size' < size) : s.weight level p size' < s.weight level p size :=
  Nat.add_lt_add_left h _

theorem weight_down (hl : level' < level) (h : size' < size) :
    s.weight level' p' size' < s.weight level p size := by
  refine Nat.add_lt_add_of_le_of_lt (Nat.mul_le_mul_right _ ?_) h
  have h1 := Nat.mul_le_mul_right s.subroutines.length hl
  have h2 := Subroutines.open_le s.subroutines p'.entered
  rw [Nat.succ_mul] at h1
  omega

theorem weight_enter {k : Target} {n : Node} (hn : s.subroutines.lookup k = some n)
    (hk : k ∉ p.entered) :
    s.weight level (p.enter k) (sizeOf n) < s.weight level p size := by
  refine Nat.lt_of_lt_of_le (Nat.add_lt_add_left (lookup_lt hn) _) ?_
  refine Nat.le_trans ?_ (Nat.le_add_right _ _)
  rw [← Nat.succ_mul]
  exact Nat.mul_le_mul_right _ (Nat.add_lt_add_left (Subroutines.open_lt hn hk) _)

end Scope

open Scope (weight_part weight_down weight_enter)

/-! ## Reports -/

/-- A violation of the value at a path by a check at a place of a node. -/
def violation (h : Heading) (path : Path) (kind : Violation.Kind) (value : Option Json)
    (place : Path) : Violation :=
  ⟨path, kind, some ⟨value, h.declaredType, place⟩⟩

namespace Heading

def place (h : Heading) (keyword : String) : Path := h.location ++ [.name keyword]

def reportType (h : Heading) (v : Json) (p : Site) (t : Tally) : Tally :=
  t.report (violation h p.path .type (some v) (h.place "type"))

/-- Report every required name that an object lacks, at its own path. -/
def reportMissing (h : Heading) (v : Json) (p : Site) (t : Tally) : Tally :=
  (h.missing v).foldl (fun t name =>
    t.report (violation h (p.down (.name name)).path .required (some v) (h.place "required"))) t

/-- Check a value that does not exist: a default satisfies the node, and otherwise it fails if it
is required. -/
def checkAbsent (h : Heading) (p : Site) (t : Tally) : Tally :=
  if h.required && h.default.isNone then
    t.report (violation h p.path .required none (h.place "required"))
  else t

/-- Report a member that `additionalProperties: false` rejects. -/
def reportClosed (h : Heading) (place : Path) (p : Site) (t : Tally) (name : String) : Tally :=
  t.report (violation h p.path .additionalProperties
    (some (.string (p.down (.name name)).path.field)) place)

/-- Report a value unless a condition holds. -/
def demand (h : Heading) (holds : Bool) (kind : Violation.Kind) (v : Json) (place : Path)
    (p : Site) (t : Tally) : Tally :=
  if holds then t else t.report (violation h p.path kind (some v) place)

def checkRule (h : Heading) (r : Rule) (place : Path) (v : Json) (p : Site) (t : Tally) : Tally :=
  match r.fault? v with
  | none => t
  | some kind => t.report (violation h p.path kind (some v) place)

end Heading

theorem sizeOf_fst_lt {α : Type} [SizeOf α] {xs : List α} {x : α × Nat} (h : x ∈ xs.zipIdx) :
    sizeOf x.1 < sizeOf xs :=
  List.sizeOf_lt_of_mem (List.fst_mem_of_mem_zipIdx h)

/-! ## Runs -/

mutual
/-- Check a present value against a node. -/
def Node.check (s : Scope) (n : Node) (v : Json) (p : Site) (t : Tally) : Tally :=
  match n with
  | .mk h head tail =>
    if h.acceptsType v then
      let t := head.foldl (fun t c => c.check s h v p t) t
      let t := h.reportMissing v p t
      if h.missing v = [] ∨ s.greedy = true then tail.foldl (fun t c => c.check s h v p t) t
      else t
    else h.reportType v p t
termination_by s.weight (sizeOf v) p (sizeOf n)
decreasing_by
  all_goals refine weight_part ?_
  all_goals have := List.sizeOf_lt_of_mem ‹_ ∈ _›
  all_goals simp only [Node.mk.sizeOf_spec]
  all_goals omega

/-- Run one check of the node with the given heading. -/
def Check.check (s : Scope) (h : Heading) (c : Check) (v : Json) (p : Site) (t : Tally) : Tally :=
  match c with
  | .rule r place => h.checkRule r place v p t
  | .dependencies entries =>
    match v with
    | .object ms => entries.foldl (fun t e =>
        bif Members.has ms e.1 then e.2.check s h (.object ms) p t else t) t
    | _ => t
  | .closed declared place =>
    match v with
    | .object ms => (ms.filter fun m => !declared.has m.1).foldl
        (fun t m => h.reportClosed place p t m.1) t
    | _ => t
  | .additional declared n =>
    match v with
    | .object ms => ms.foldl (fun t m =>
        bif declared.has m.1 then t else n.check s m.2 (p.down (.name m.1)) t) t
    | _ => t
  | .reference text place =>
    match (s.subroutines.lookup (.reference text)).attach with
    | none => t
    | some ⟨n, _⟩ =>
      if _h : .reference text ∈ p.entered then t
      else h.demand (Tally.passes fun t => n.check s v (p.enter (.reference text)) t)
        .reference v place p t
  | .schemaFormat name =>
    match (s.subroutines.lookup (.format name)).attach with
    | none => t
    | some ⟨n, _⟩ =>
      if _h : .format name ∈ p.entered then t
      else n.check s v (p.enter (.format name)) t
  | .negation n place => h.demand (!Tally.passes fun t => n.check s v p t) .not v place p t
  | .items n =>
    match v with
    | .array xs => xs.zipIdx.attach.foldl
        (fun t x => n.check s x.1.1 (p.down (.index x.1.2)) t) t
    | _ => t
  | .patternProperties entries =>
    match v with
    | .object ms => ms.foldl (fun t m => entries.foldl (fun t e =>
        bif e.1.accepts m.1 then e.2.check s m.2 (p.down (.name m.1)) t else t) t) t
    | _ => t
  | .allOf ns => ns.foldl (fun t n => n.check s v p t) t
  | .anyOf ns place =>
    let verdicts := ns.map fun n => Tally.passes fun t => n.check s v p t
    h.demand (verdicts.contains true) .anyOf v place p t
  | .oneOf ns place =>
    let verdicts := ns.map fun n => Tally.passes fun t => n.check s v p t
    h.demand (verdicts.count true == 1) .oneOf v place p t
  | .tuple ns =>
    match v with
    | .array xs => ns.zipIdx.attach.foldl (fun t n =>
        match xs[n.1.2]?.attach with
        | some ⟨x, _⟩ => n.1.1.check s x (p.down (.index n.1.2)) t
        | none => n.1.1.heading.checkAbsent (p.down (.index n.1.2)) t) t
    | _ => t
  | .properties entries skipNull =>
    match v with
    | .object ms => entries.foldl (fun t e =>
        match (ms.lookup e.1).attach with
        | some ⟨w, _⟩ => e.2.check s w (p.down (.name e.1)) t
        | none => e.2.heading.checkAbsent (p.down (.name e.1)) t) t
    | .null =>
      if skipNull then t
      else entries.foldl (fun t e => e.2.heading.checkAbsent (p.down (.name e.1)) t) t
    | _ => entries.foldl (fun t e => e.2.heading.checkAbsent (p.down (.name e.1)) t) t
  | .additionalItems limit n =>
    match v with
    | .array xs => (xs.zipIdx.drop limit).attach.foldl
        (fun t x => n.check s x.1.1 (p.down (.index x.1.2)) t) t
    | _ => t
termination_by s.weight (sizeOf v) p (sizeOf c)
decreasing_by
  all_goals simp only [Check.dependencies.sizeOf_spec, Check.additional.sizeOf_spec,
    Check.reference.sizeOf_spec, Check.schemaFormat.sizeOf_spec, Check.negation.sizeOf_spec,
    Check.items.sizeOf_spec, Check.patternProperties.sizeOf_spec, Check.allOf.sizeOf_spec,
    Check.anyOf.sizeOf_spec, Check.oneOf.sizeOf_spec, Check.tuple.sizeOf_spec,
    Check.properties.sizeOf_spec, Check.additionalItems.sizeOf_spec, Json.array.sizeOf_spec,
    Json.object.sizeOf_spec]
  · exact weight_part (Nat.lt_of_lt_of_le (mem_lt ‹_›) (by omega))
  · exact weight_down (Nat.lt_of_lt_of_le (mem_lt ‹_›) (by omega)) (by omega)
  · exact weight_enter ‹_› _h
  · exact weight_enter ‹_› _h
  · exact weight_part (by omega)
  · exact weight_down (Nat.lt_of_lt_of_le (sizeOf_fst_lt (Subtype.property _)) (by omega))
      (by omega)
  · exact weight_down (Nat.lt_of_lt_of_le (mem_lt ‹_ ∈ ms›) (by omega))
      (Nat.lt_of_lt_of_le (mem_lt ‹_ ∈ entries›) (by omega))
  · exact weight_part (Nat.lt_of_lt_of_le (List.sizeOf_lt_of_mem ‹_›) (by omega))
  · exact weight_part (Nat.lt_of_lt_of_le (List.sizeOf_lt_of_mem ‹_›) (by omega))
  · exact weight_part (Nat.lt_of_lt_of_le (List.sizeOf_lt_of_mem ‹_›) (by omega))
  · exact weight_down
      (Nat.lt_of_lt_of_le (List.sizeOf_lt_of_mem (List.mem_of_getElem? ‹_›)) (by omega))
      (Nat.lt_of_lt_of_le (sizeOf_fst_lt (Subtype.property _)) (by omega))
  · exact weight_down (Nat.lt_of_lt_of_le (lookup_lt ‹_›) (by omega))
      (Nat.lt_of_lt_of_le (mem_lt ‹_ ∈ entries›) (by omega))
  · exact weight_down (Nat.lt_of_lt_of_le
      (sizeOf_fst_lt (List.mem_of_mem_drop (Subtype.property _))) (by omega)) (by omega)

def Dependency.check (s : Scope) (h : Heading) (d : Dependency) (v : Json) (p : Site) (t : Tally) :
    Tally :=
  match d with
  | .names names place =>
    h.demand (names.all fun name => (v.get? name).isSome) .dependencies v place p t
  | .schema n => n.check s v p t
termination_by s.weight (sizeOf v) p (sizeOf d)
decreasing_by
  simp only [Dependency.schema.sizeOf_spec]
  exact weight_part (by omega)
end

/-! ## Parts, without the proofs that they are parts -/

namespace Check

variable (s : Scope) (h : Heading)

theorem check_items (n : Node) (xs : List Json) (p : Site) (t : Tally) :
    (items n).check s h (.array xs) p t =
      xs.zipIdx.foldl (fun t x => n.check s x.1 (p.down (.index x.2)) t) t := by
  rw [check]
  exact List.foldl_attach (f := fun t (x : Json × Nat) => n.check s x.1 (p.down (.index x.2)) t)

theorem check_additionalItems (limit : Nat) (n : Node) (xs : List Json) (p : Site) (t : Tally) :
    (additionalItems limit n).check s h (.array xs) p t =
      (xs.zipIdx.drop limit).foldl (fun t x => n.check s x.1 (p.down (.index x.2)) t) t := by
  rw [check]
  exact List.foldl_attach (f := fun t (x : Json × Nat) => n.check s x.1 (p.down (.index x.2)) t)

/-- Check the value at a place, which may be absent. -/
def checkPart (n : Node) (part : Option Json) (p : Site) (t : Tally) : Tally :=
  match part with
  | some w => n.check s w p t
  | none => n.heading.checkAbsent p t

theorem check_tuple (ns : List Node) (xs : List Json) (p : Site) (t : Tally) :
    (tuple ns).check s h (.array xs) p t =
      ns.zipIdx.foldl (fun t n => checkPart s n.1 xs[n.2]? (p.down (.index n.2)) t) t := by
  rw [check, ← List.foldl_attach (l := ns.zipIdx)]
  congr 1
  funext t n
  split
  · next x hx _ => rw [Option.mem_def.1 hx, checkPart]
  · next hx => rw [Option.attach_eq_none_iff.1 hx, checkPart]

theorem check_properties (entries : List (String × Node)) (skipNull : Bool) (ms : Members)
    (p : Site) (t : Tally) :
    (properties entries skipNull).check s h (.object ms) p t =
      entries.foldl (fun t e => checkPart s e.2 (ms.lookup e.1) (p.down (.name e.1)) t) t := by
  rw [check]
  congr 1
  funext t e
  split
  · next w hw _ => rw [Option.mem_def.1 hw, checkPart]
  · next hw => rw [Option.attach_eq_none_iff.1 hw, checkPart]

/-- Whether the target that is not being checked on the value accepts it. -/
def answers (k : Target) (v : Json) (p : Site) : Bool :=
  match s.subroutines.lookup k with
  | some n => decide (k ∈ p.entered) || Tally.passes fun t => n.check s v (p.enter k) t
  | none => true

theorem check_reference (text : String) (place : Path) (v : Json) (p : Site) (t : Tally) :
    (reference text place).check s h v p t =
      h.demand (answers s (.reference text) v p) .reference v place p t := by
  rw [check, answers]
  split
  · next hn => simp [Option.attach_eq_none_iff.1 hn, Heading.demand]
  · next n hn _ =>
    rw [Option.mem_def.1 hn]
    by_cases hk : .reference text ∈ p.entered <;> simp [hk, Heading.demand]

theorem check_schemaFormat (name : String) (v : Json) (p : Site) (t : Tally) :
    (schemaFormat name).check s h v p t =
      match s.subroutines.lookup (.format name) with
      | some n =>
        if .format name ∈ p.entered then t else n.check s v (p.enter (.format name)) t
      | none => t := by
  rw [check]
  split
  · next hn => rw [Option.attach_eq_none_iff.1 hn]
  · next n hn _ =>
    rw [Option.mem_def.1 hn]
    by_cases hk : .format name ∈ p.entered <;> simp [hk]

end Check

/-- Whether a run on a value reports nothing. -/
def Node.accepts (s : Scope) (n : Node) (v : Json) (p : Site) : Bool :=
  Tally.passes fun t => n.check s v p t

end JsonSchema
