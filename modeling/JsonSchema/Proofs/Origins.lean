import JsonSchema.Proofs.Cells
import JsonSchema.Proofs.Pairing
import JsonSchema.Proofs.Termination

/-!
# Where compiled nodes come from

Every node of a build, nested nodes and the nodes of targets included, was compiled from a schema
that is reached from the root of the document. So what no reached schema says, no node says.

* `Node.Compiled`: a node was compiled from a schema that is reached;
* `Node.Compiled.within`, `Options.build_compiled`: all nodes of a build are such;
* `Options.build_lookup`: what the table of a build has for the targets that schemas name;
* `NoDefaults`: no schema that is reached has a default;
* `NoDefaults.fillsNothing`: without a default in the reached schemas nothing is filled in.
-/

namespace JsonSchema

/-- The node was compiled from a schema that is reached from the root. -/
def Node.Compiled (root : Json) (o : Options) (T : Subroutines) (n : Node) : Prop :=
  ∃ x, Reachable root o x ∧ Plan.Settled ⟨o, .of root o⟩ T x n

/-! ## Nested nodes -/

open Classical in
/-- A compiler that compiles certain schemas only. -/
noncomputable def Compiler.only (c : Compiler Reads) (P : Json → Prop) : Compiler Reads :=
  { c with node := fun place x => if P x then c.node place x else .error ⟨place, .invalidSchema⟩ }

section

variable {root : Json} {o : Options} {T : Subroutines} {n k : Node}

theorem Compiler.Yields.only {c : Compiler Reads} {N : Node → Prop} {K : Target → Prop}
    (h : c.Yields o N K) {P : Json → Prop} {M : Node → Prop}
    (hM : ∀ place x m, P x → c.node place x = .ok m → M m) : (c.only P).Yields o M K where
  read := h.read
  node place x m hm := by
    simp only [Compiler.only] at hm
    split at hm
    · next hx => exact hM place x m hx hm
    · cases hm
  reference := h.reference
  format := h.format

theorem Node.Compiled.nested (h : n.Compiled root o T) {c : Check} (hc : c ∈ n.checks)
    (hk : k ∈ c.nodes) : k.Compiled root o T := by
  obtain ⟨x, hx, hn⟩ := h
  obtain ⟨location, hn⟩ := hn.schema
  cases x with
  | object ms =>
    have hon : (Alike.identical Reads).On (Plan.settled ⟨o, .of root o⟩ T)
        ((Plan.settled ⟨o, .of root o⟩ T).only (Reachable root o)) (Reachable root o)
        (fun _ => True) := by
      refine ⟨fun y hy place => ?_, fun _ _ _ => rfl, fun _ => rfl⟩
      exact (if_pos hy).symm
    have hyields : ((Plan.settled ⟨o, .of root o⟩ T).only (Reachable root o)).Yields o
        (Node.Compiled root o T) fun t => (T.lookup t).isSome :=
      Plan.settled_yields.only fun place y m hy hm => ⟨y, hy, place, Build.steady_eq_ok.1 hm⟩
    have hposition : ∀ y, Members.Position o ms y → Reachable root o y :=
      fun y hy => .position hx hy
    have hobject := hon.object location hposition fun _ _ => True.intro
    exact (hyields.object (hobject.symm.trans hn) c hc).1 k hk
  | bool b =>
    cases hn
    cases hc
  | _ => cases hn

theorem Node.Compiled.within (h : n.Compiled root o T) (hk : k.Within n) : k.Compiled root o T := by
  induction hk with
  | refl => exact h
  | step hc hj _ ih => exact ih (h.nested hc hj)

/-! ## Builds -/

theorem Options.build_reached {schema : Json} {w : Validator} (hw : o.build schema = .ok w)
    {t : Target} (hn : w.subroutines.lookup t = some n) : t.Reached schema o := by
  have hc := (build_eq_ok.1 hw).1
  obtain ⟨s, -, hvalid, -, hholds⟩ := reserve_matches o schema
  obtain ⟨id, hid, -⟩ := (hholds _ _ hc).filled t n hn
  exact hvalid.reached _ (mem_of_lookup hid)

theorem Options.build_lookup {schema : Json} {w : Validator} (hw : o.build schema = .ok w)
    {ms : Members} {t : Target} (hms : Reachable schema o (.object ms)) (ht : ms.Names o t) :
    Option.Rel (Plan.Settled ⟨o, .of schema o⟩ w.subroutines) (t.schema? schema o)
      (w.subroutines.lookup t) := by
  have hcomplete := compile_complete (build_eq_ok.1 hw).1
  have hschema := Targets.lookup_of_names hms.held ht
  cases hn : w.subroutines.lookup t with
  | some n =>
    obtain ⟨x, hx, hsettled⟩ := hcomplete.entry _ (mem_of_lookup hn)
    rw [← hschema, hx]
    exact .some hsettled
  | none =>
    cases hx : t.schema? schema o with
    | none => exact .none
    | some x =>
      have hlookup := hcomplete.lookup_of_reached ⟨ms, hms, ht, by rw [hx]; rfl⟩
      rw [hn] at hlookup
      cases hlookup

/-- **All nodes of a build were compiled from schemas that are reached.** -/
theorem Options.build_compiled {schema : Json} {w : Validator} (hw : o.build schema = .ok w) :
    w.root.Compiled schema o w.subroutines ∧
      ∀ t n, w.subroutines.lookup t = some n → n.Compiled schema o w.subroutines := by
  have hcomplete := compile_complete (build_eq_ok.1 hw).1
  refine ⟨⟨schema, .root, hcomplete.root⟩, fun t n hn => ?_⟩
  obtain ⟨ms, hms, ht, -⟩ := build_reached hw hn
  obtain ⟨x, hx, hsettled⟩ := exists_left_of_rel (build_lookup hw hms ht) hn
  exact ⟨x, .target hms ht hx, hsettled⟩

/-! ## Defaults -/

namespace Json

mutual
/-- A member of a certain name occurs in the value, at any depth. -/
def mentions (name : String) : Json → Bool
  | array xs => mentionsItems name xs
  | object ms => mentionsMembers name ms
  | _ => false

def mentionsItems (name : String) : List Json → Bool
  | [] => false
  | x :: xs => x.mentions name || mentionsItems name xs

def mentionsMembers (name : String) : Members → Bool
  | [] => false
  | (key, v) :: ms => key == name || v.mentions name || mentionsMembers name ms
end

theorem mentions_array {name : String} {xs : List Json} :
    (array xs).mentions name ↔ ∃ x ∈ xs, x.mentions name := by
  rw [mentions]
  induction xs with
  | nil => simp [mentionsItems]
  | cons x xs ih => simp [mentionsItems, ih]

theorem mentions_object {name : String} {ms : Members} :
    (object ms).mentions name ↔ ∃ m ∈ ms, m.1 = name ∨ m.2.mentions name := by
  rw [mentions]
  induction ms with
  | nil => simp [mentionsMembers]
  | cons m ms ih => simp [mentionsMembers, ih]

theorem Inside.mentions {x y : Json} {name : String} (h : x.Inside y) (hx : x.mentions name) :
    y.mentions name := by
  induction h with
  | refl => exact hx
  | @part y z hy _ ih =>
    cases z with
    | array xs => exact mentions_array.2 ⟨y, hy, ih⟩
    | object ms =>
      obtain ⟨m, hm, rfl⟩ := List.mem_map.1 hy
      exact mentions_object.2 ⟨m, hm, .inr ih⟩
    | _ => cases hy

end Json

/-- No schema object that is reached has a default. -/
def NoDefaults (root : Json) (o : Options) : Prop :=
  ∀ ms : Members, Reachable root o (.object ms) → ms.lookup "default" = none

/-- No schema that is reached has a member that no document of the build mentions. -/
theorem Reachable.lookup_eq_none {schema : Json} {ms : Members}
    (hms : Reachable schema o (.object ms)) {name : String}
    (h : ∀ d ∈ Targets.documents schema o, d.mentions name = false) : ms.lookup name = none := by
  obtain ⟨d, hd, hinside⟩ := hms.held
  cases hl : ms.lookup name with
  | none => rfl
  | some v =>
    have hmentions : (Json.object ms).mentions name :=
      Json.mentions_object.2 ⟨_, mem_of_lookup hl, .inl rfl⟩
    simpa [h d hd] using hinside.mentions hmentions

/-- No schema has a default if no document of the build mentions one. -/
theorem NoDefaults.of_documents {schema : Json}
    (h : ∀ d ∈ Targets.documents schema o, d.mentions "default" = false) : NoDefaults schema o :=
  fun _ hms => hms.lookup_eq_none h

/-- The default of a node is the one of its schema. -/
theorem Plan.Settled.default_eq {x : Json} (h : Plan.Settled ⟨o, .of root o⟩ T x n) :
    n.heading.default = x.get? "default" := by
  obtain ⟨location, h⟩ := h.schema
  cases x with
  | object ms =>
    have hheading := Compiler.heading_of_object (fun _ => rfl) h
    obtain ⟨_, -, hheading⟩ := Reads.bind_eq_ok hheading
    obtain ⟨_, -, hheading⟩ := Reads.bind_eq_ok hheading
    rw [← Except.ok.inj hheading]
    rfl
  | bool b =>
    cases h
    rfl
  | _ => cases h

/-- **Where no schema that is reached has a default**, mutating runs fill in nothing. -/
theorem NoDefaults.fillsNothing {schema : Json} (h : NoDefaults schema o) {w : Validator}
    (hw : o.build schema = .ok w) : w.FillsNothing := by
  have hnode : ∀ {n : Node}, n.Compiled schema o w.subroutines → n.heading.default = none := by
    rintro n ⟨x, hx, hn⟩
    rw [hn.default_eq]
    cases x with
    | object ms => exact h ms hx
    | _ => rfl
  obtain ⟨hroot, htable⟩ := Options.build_compiled hw
  exact .inr ⟨fun k hk => hnode (hroot.within hk),
    fun t n hn k hk => hnode ((htable t n hn).within hk)⟩

end

end JsonSchema
