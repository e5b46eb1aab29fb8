import JsonSchema.Proofs.Origins

/-!
# Validators that do not look at the form of numbers

A number can be written as an integer or as a double. `multipleOf` and custom rules may tell the two
forms apart, no other rule does. A validator has neither if it was built without registered keywords
from documents that do not mention `multipleOf`.

* `Node.FormFree`, `Validator.FormFree`: nodes and validators without rules that look at the form;
* `Compiler.object_formFree`: the checks of a schema object without `multipleOf`;
* `Options.build_formFree`: validators that are built.
-/

namespace JsonSchema

/-! ## Rules that look at the form -/

/-- The rules that may tell equal values apart. -/
def Rule.looksAtForm : Rule → Bool
  | multipleOf _ | custom _ => true
  | _ => false

def Check.looksAtForm : Check → Bool
  | rule r _ => r.looksAtForm
  | _ => false

/-- No check in the node looks at the form of values, at any depth. -/
def Node.FormFree (n : Node) : Prop :=
  ∀ m : Node, m.Within n → ∀ c ∈ m.checks, c.looksAtForm = false

theorem Node.FormFree.of_checks {n : Node}
    (h : ∀ c ∈ n.checks, c.looksAtForm = false ∧ ∀ m ∈ c.nodes, m.FormFree) : n.FormFree := by
  intro m hm
  cases hm with
  | refl => exact fun c hc => (h c hc).1
  | step hc hk hm => exact (h _ hc).2 _ hk m hm

theorem Node.FormFree.nested {n m : Node} {c : Check} (h : n.FormFree) (hc : c ∈ n.checks)
    (hm : m ∈ c.nodes) : m.FormFree :=
  fun k hk => h k (.step hc hm hk)

/-- There is no `multipleOf` and no custom rule, neither in the root nor in a target. -/
def Validator.FormFree (w : Validator) : Prop :=
  w.root.FormFree ∧ ∀ k n, w.subroutines.lookup k = some n → n.FormFree

/-! ## Validators that are built -/

/-- Whatever checks are read, none of them looks at the form. -/
def Reads.FormFree (r : Reads (List Check)) : Prop :=
  ∀ cs, r = .ok cs → ∀ c ∈ cs, c.looksAtForm = false

namespace Reads.FormFree

theorem error (e : SchemaError) : FormFree (.error e) := nofun

theorem nil : FormFree (.ok []) := by
  rintro _ ⟨⟩
  exact List.forall_mem_nil _

theorem singleton {c : Check} (hc : c.looksAtForm = false) : FormFree (.ok [c]) := by
  rintro _ ⟨⟩
  exact List.forall_mem_singleton.2 hc

theorem bind {α : Type} {r : Reads α} {f : α → Reads (List Check)}
    (hf : ∀ a, r = .ok a → FormFree (f a)) : FormFree (r >>= f) := by
  intro cs h
  obtain ⟨a, ha, h⟩ := bind_eq_ok h
  exact hf a ha cs h

end Reads.FormFree

open Reads (FormFree)

section Compiling

variable {o : Options} {location : Path} {ms : Members} {v : Json}

theorem Keyword.rule?_looksAtForm {k : Keyword} (hk : k ≠ .multipleOf) {r : Option Rule}
    (h : k.rule? location ms v = .ok r) : ∀ rule ∈ r, rule.looksAtForm = false := by
  cases k with
  | multipleOf => exact absurd rfl hk
  | uniqueItems =>
    cases v with
    | bool b => cases b <;> cases h <;> simp [Rule.looksAtForm]
    | _ => cases h
  | enum =>
    cases v with
    | array xs => cases xs <;> cases h <;> simp [Rule.looksAtForm]
    | _ => cases h
  | pattern =>
    cases v with
    | string text =>
      obtain ⟨p, -, h⟩ := Reads.bind_eq_ok h
      cases h
      simp [Rule.looksAtForm]
    | _ => cases h
  | maxProperties | minProperties | maxItems | minItems | maxLength | minLength | minimum
  | maximum =>
    obtain ⟨a, -, h⟩ := Reads.bind_eq_ok h
    cases h
    simp [Rule.looksAtForm]
  | _ =>
    cases h
    simp

theorem readFormat_looksAtForm {name : String} {r : Rule} (h : readFormat o location name = .ok r) :
    r.looksAtForm = false := by
  rw [readFormat] at h
  split at h
  · cases h
    rfl
  · obtain ⟨p, -, h⟩ := Reads.bind_eq_ok h
    cases h
    rfl
  · split at h <;> cases h
    rfl

variable {c : Compiler Reads} (hread : ∀ {α : Type} (r : Reads α), c.read r = r)
include hread

theorem Compiler.fails_formFree (e : SchemaError) : FormFree (c.read (.error e)) := by
  rw [hread]
  exact .error e

theorem Compiler.additionalItems_formFree (limit : Nat) :
    FormFree (c.additionalItems location limit v) := by
  cases v with
  | bool b =>
    cases b with
    | true => exact .nil
    | false => exact .singleton rfl
  | object ps => exact .bind fun _ _ => .singleton rfl
  | _ => exact fails_formFree hread _

theorem Compiler.format_formFree : FormFree (c.format location o v) := by
  cases v with
  | string name =>
    rw [format]
    split
    · exact .bind fun _ _ => .singleton rfl
    · refine .bind fun r hr => .singleton ?_
      rw [hread] at hr
      exact readFormat_looksAtForm hr
  | _ => exact fails_formFree hread _

/-- The keywords but `multipleOf` have no rules that look at the form. -/
theorem Compiler.keyword_formFree {k : Keyword} (hk : k ≠ .multipleOf) :
    FormFree (c.keyword location ms k v) := by
  cases k with
  | multipleOf => exact absurd rfl hk
  | dependencies =>
    cases v with
    | object => exact .bind fun _ _ => .singleton rfl
    | _ => exact fails_formFree hread _
  | additionalProperties =>
    cases v with
    | bool b =>
      cases b with
      | true => exact .nil
      | false => exact .bind fun _ _ => .singleton rfl
    | object ps => exact .bind fun _ _ => .bind fun _ _ => .singleton rfl
    | _ => exact fails_formFree hread _
  | reference =>
    cases v with
    | string text =>
      refine .bind fun b _ => ?_
      cases b with
      | true => exact .singleton rfl
      | false => exact .nil
    | _ => exact fails_formFree hread _
  | not => exact .bind fun _ _ => .singleton rfl
  | items =>
    cases v with
    | array => exact .nil
    | _ => exact .bind fun _ _ => .singleton rfl
  | patternProperties =>
    cases v with
    | object es =>
      cases es with
      | nil => exact .nil
      | cons => exact .bind fun _ _ => .singleton rfl
    | _ => exact fails_formFree hread _
  | allOf =>
    cases v with
    | array => exact .bind fun _ _ => .singleton rfl
    | _ => exact fails_formFree hread _
  | anyOf | oneOf =>
    cases v with
    | array xs =>
      cases xs with
      | nil => exact .nil
      | cons => exact .bind fun _ _ => .singleton rfl
    | _ => exact fails_formFree hread _
  | _ =>
    refine .bind fun r hr => ?_
    rw [hread] at hr
    rintro _ ⟨⟩
    refine List.forall_mem_map.2 fun rule hrule => ?_
    exact Keyword.rule?_looksAtForm hk hr rule (Option.mem_toList.1 hrule)

theorem Compiler.parts_formFree : FormFree (c.parts location ms) := by
  rw [parts]
  split
  · exact .bind fun _ _ => .singleton rfl
  · split
    · exact .bind fun _ _ => .singleton rfl
    · exact fails_formFree hread _
    · exact .nil

theorem Compiler.object_formFree (ho : o.keywords = []) (hms : ms.lookup "multipleOf" = none)
    {n : Node} (h : c.object location o ms = .ok n) : ∀ d ∈ n.checks, d.looksAtForm = false := by
  refine forall_of_object hread ?_ ?_ ?_ ?_ ?_ h
  · intro cs hcs
    rw [customChecks_eq_nil ho] at hcs
    exact FormFree.nil cs hcs
  · exact fun xs v cs _ _ => additionalItems_formFree hread _ cs
  · exact fun v cs _ => format_formFree hread cs
  · intro k v cs _ hv
    refine keyword_formFree hread ?_ cs
    rintro rfl
    rw [show Keyword.multipleOf.name = "multipleOf" from rfl, hms] at hv
    cases hv
  · exact parts_formFree hread

end Compiling

/-- **A validator looks at no form** if it was built without registered keywords from documents that
do not mention `multipleOf`. -/
theorem Options.build_formFree {o : Options} (ho : o.keywords = []) {schema : Json}
    (h : ∀ d ∈ Targets.documents schema o, d.mentions "multipleOf" = false) {w : Validator}
    (hw : o.build schema = .ok w) : w.FormFree := by
  have hnode {n : Node} (hn : n.Compiled schema o w.subroutines) :
      ∀ c ∈ n.checks, c.looksAtForm = false := by
    obtain ⟨x, hx, hn⟩ := hn
    obtain ⟨location, hn⟩ := hn.schema
    cases x with
    | object ms => exact Compiler.object_formFree (fun _ => rfl) ho (hx.lookup_eq_none h) hn
    | bool b =>
      cases hn
      exact List.forall_mem_nil _
    | _ => cases hn
  obtain ⟨hroot, htable⟩ := build_compiled hw
  exact ⟨fun m hm => hnode (hroot.within hm), fun k n hn m hm => hnode ((htable k n hn).within hm)⟩

end JsonSchema
