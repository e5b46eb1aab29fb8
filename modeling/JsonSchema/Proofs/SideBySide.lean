import JsonSchema.Proofs.Reordering
import JsonSchema.Proofs.Simulation
import JsonSchema.Proofs.WellFormed

/-!
# Reading schema objects side by side

Two schema objects that differ in the order of members only are read alike: either both can be read
or neither can, and what is read says the same of all values. Only the fault that is reported may be
another one.

* `Reads.Agree`: readers that agree, in their success and in their results;
* `Reads.Agree.bind`, `Reads.Agree.mapM_paired`: readers one after the other, in any order;
* `Heading.Agrees`, `Rule.Agrees`: headings and rules that say the same;
* `readHeading_agrees`, `Keyword.rule?_agrees`, `Declared.read_agrees`: the readers of an object.
-/

namespace JsonSchema

/-! ## Readers that agree -/

/-- The results are related. If it is asked for, one reader succeeds if the other one does. -/
structure Reads.Agree (both : Prop) {α β : Type} (R : α → β → Prop) (r : Reads α) (r' : Reads β) :
    Prop where
  succeeds : both → (Succeeds r ↔ Succeeds r')
  results : ∀ a b, r = .ok a → r' = .ok b → R a b

namespace Reads.Agree

variable {both : Prop} {α β γ δ : Type} {R : α → β → Prop} {S : γ → δ → Prop} {r : Reads α}
  {r' : Reads β} {xs : List α} {ys : List β}

theorem ok {a : α} {b : β} (h : R a b) : Agree both R (.ok a) (.ok b) where
  succeeds _ := iff_of_true (succeeds_ok a) (succeeds_ok b)
  results _ _ := by
    rintro ⟨⟩ ⟨⟩
    exact h

theorem error (e e' : SchemaError) : Agree both R (.error e) (.error e') where
  succeeds _ := iff_of_false (not_succeeds_error e) (not_succeeds_error e')
  results _ _ := nofun

theorem bind {f : α → Reads γ} {g : β → Reads δ} (h : Agree both R r r')
    (hfg : ∀ a b, R a b → Agree both S (f a) (g b)) : Agree both S (r >>= f) (r' >>= g) := by
  constructor
  · intro hboth
    have hiff := h.succeeds hboth
    cases r with
    | error e =>
      cases r' with
      | error e' => exact iff_of_false (not_succeeds_error e) (not_succeeds_error e')
      | ok b => exact absurd (hiff.2 (succeeds_ok b)) (not_succeeds_error e)
    | ok a =>
      cases r' with
      | error e' => exact absurd (hiff.1 (succeeds_ok a)) (not_succeeds_error e')
      | ok b => exact (hfg a b (h.results a b rfl rfl)).succeeds hboth
  · intro c d hc hd
    obtain ⟨a, ha, hc⟩ := bind_eq_ok hc
    obtain ⟨b, hb, hd⟩ := bind_eq_ok hd
    exact (hfg a b (h.results a b ha hb)).results c d hc hd

theorem map {f : α → γ} {g : β → δ} (h : Agree both R r r') (hfg : ∀ a b, R a b → S (f a) (g b)) :
    Agree both S (do return f (← r)) (do return g (← r')) :=
  h.bind fun a b hab => ok (hfg a b hab)

theorem mono {R' : α → β → Prop} (h : Agree both R r r') (hR : ∀ a b, R a b → R' a b) :
    Agree both R' r r' where
  succeeds := h.succeeds
  results a b ha hb := hR a b (h.results a b ha hb)

/-- Reading the same list twice, or lists with related entries in the same order. -/
theorem mapM {f : α → Reads γ} {g : β → Reads δ} (h : List.Forall₂ R xs ys)
    (hfg : ∀ x ∈ xs, ∀ y ∈ ys, R x y → Agree both S (f x) (g y)) :
    Agree both (List.Forall₂ S) (xs.mapM f) (ys.mapM g) := by
  induction h with
  | nil => exact ok .nil
  | cons hxy _ ih =>
    rw [List.mapM_cons, List.mapM_cons]
    refine (hfg _ List.mem_cons_self _ List.mem_cons_self hxy).bind fun a b hab => ?_
    refine (ih fun x hx y hy => ?_).bind fun as bs habs => ok (.cons hab habs)
    exact hfg x (List.mem_cons_of_mem _ hx) y (List.mem_cons_of_mem _ hy)

/-- Reading lists with related entries in one order or another. -/
theorem mapM_paired {f : α → Reads γ} {g : β → Reads δ} (h : Paired R xs ys)
    (hfg : ∀ x ∈ xs, ∀ y ∈ ys, R x y → Agree both S (f x) (g y)) :
    Agree both (Paired S) (xs.mapM f) (ys.mapM g) where
  succeeds hboth := by
    rw [succeeds_mapM fun x _ => Iff.rfl, succeeds_mapM fun y _ => Iff.rfl]
    exact h.forall_iff fun x hx y hy hxy => (hfg x hx y hy hxy).succeeds hboth
  results as bs has hbs := h.through (mapM_eq_ok has) (mapM_eq_ok hbs)
    fun x hx y hy a b hxy ha hb => (hfg x hx y hy hxy).results a b ha hb

end Reads.Agree

open Reads (Agree)

variable {both : Prop} {place place' : Path} {ms ns : Members} {v w : Json} {xs ys : List Json}

/-! ## Patterns and names -/

theorem readPattern_agrees (text : String) :
    Agree both (· = ·) (readPattern place text) (readPattern place' text) := by
  rw [readPattern, readPattern]
  cases Pattern.parse? text with
  | none => exact .error _ _
  | some p => exact .ok rfl

theorem readNames_agrees (fault fault' : SchemaError) (h : List.Forall₂ Json.Reordered xs ys) :
    Agree both (· = ·) (readNames fault xs) (readNames fault' ys) := by
  induction h with
  | nil => exact .ok rfl
  | @cons x y _ _ hxy _ ih =>
    cases hxy with
    | string s => exact ih.map fun names names' h => congrArg (s :: ·) h
    | _ => exact .error _ _

/-! ## Headings -/

/-- Headings that say the same of all values. -/
structure Heading.Agrees (h h' : Heading) : Prop where
  types : h.types = h'.types
  required : h.required = h'.required
  requiredNames : h.requiredNames = h'.requiredNames
  default : h.default.isNone = h'.default.isNone

theorem readTypeName_agrees (h : v.Reordered w) :
    Agree both (· = ·) (readTypeName place v) (readTypeName place' w) := by
  cases h with
  | string s =>
    rw [readTypeName, readTypeName]
    split
    · exact .ok rfl
    · cases TypeName.ofName? s with
      | none => exact .error _ _
      | some t => exact .ok rfl
  | _ => exact .error _ _

theorem readType_agrees (h : v.Reordered w) :
    Agree both (· = ·) (readType place v) (readType place' w) := by
  cases h.shape with
  | array hitems =>
    refine (Agree.mapM hitems fun x _ y _ hxy => readTypeName_agrees hxy).map ?_
    intro types types' htypes
    obtain rfl : types = types' := List.forall₂_eq_eq_eq ▸ htypes
    rfl
  | _ => exact (readTypeName_agrees h).map fun _ _ h => by rw [h]

theorem tuple?_rel (h : (Json.object ms).Reordered (.object ns)) :
    Option.Rel (List.Forall₂ Json.Reordered) (tuple? ms) (tuple? ns) := by
  have hitems : OptionReordered _ _ := h.lookup "items"
  rw [tuple?, tuple?]
  generalize ms.lookup "items" = x, ns.lookup "items" = y at hitems
  cases hitems with
  | none => exact .none
  | some hvw =>
    cases hvw.shape with
    | array hitems => exact .some hitems
    | _ => exact .none

theorem readDeclaredType_agrees (h : (Json.object ms).Reordered (.object ns)) :
    Agree both (fun t t' => t.1 = t'.1) (readDeclaredType place ms)
      (readDeclaredType place' ns) := by
  have htuple := tuple?_rel h
  have htype := h.lookup "type"
  rw [readDeclaredType, readDeclaredType]
  generalize tuple? ms = x, tuple? ns = x' at htuple
  generalize ms.lookup "type" = y, ns.lookup "type" = y' at htype
  cases htuple with
  | some => exact .ok rfl
  | none =>
    cases htype with
    | none => exact .ok rfl
    | some hvw => exact (readType_agrees hvw).map fun _ _ => id

theorem readRequired_agrees {x y : Option Json} (h : OptionReordered x y) :
    Agree both (· = ·) (readRequired place x) (readRequired place' y) := by
  cases h with
  | none => exact .ok rfl
  | some hvw =>
    cases hvw.shape with
    | array hitems => exact (readNames_agrees _ _ hitems).map fun _ _ h => by rw [h]
    | bool b => exact .ok rfl
    | _ => exact .error _ _

theorem readHeading_agrees (h : (Json.object ms).Reordered (.object ns)) :
    Agree both Heading.Agrees (readHeading place ms) (readHeading place' ns) := by
  refine (readDeclaredType_agrees h).bind fun t t' ht => ?_
  refine (readRequired_agrees (h.lookup "required")).map fun r r' hr => ?_
  subst hr
  refine ⟨ht, rfl, rfl, ?_⟩
  have hdefault := h.lookup "default"
  dsimp only
  generalize ms.lookup "default" = x, ns.lookup "default" = y at hdefault
  cases hdefault <;> rfl

/-! ## Rules -/

/-- Rules that find faults in the same values. -/
def Rule.Agrees (r r' : Rule) : Prop := ∀ v, r.fault? v = none ↔ r'.fault? v = none

theorem Rule.Agrees.refl (r : Rule) : r.Agrees r := fun _ => Iff.rfl

theorem Rule.Agrees.enum (h : List.Forall₂ Json.Reordered xs ys) :
    (Rule.enum xs).Agrees (.enum ys) := by
  intro v
  rw [fault?, fault?, demand_eq_none, demand_eq_none, List.any_eq_true, List.any_eq_true]
  refine (Paired.of_forall₂ h).exists_iff fun x _ y _ hxy => ?_
  exact ⟨fun hx => Json.same_trans Number.same_of_eq hx hxy,
    fun hy => Json.same_trans Number.same_of_eq hy hxy.symm⟩

theorem readSize_agrees (keyword keyword' : String) (h : v.Reordered w) :
    Agree both (· = ·) (readSize place keyword v) (readSize place' keyword' w) := by
  cases h with
  | @number a b hab =>
    subst hab
    rw [readSize, readSize]
    cases a.size? with
    | none => exact .error _ _
    | some size => exact .ok rfl
  | _ => exact .error _ _

theorem readBound_agrees (keyword exclusive : String) (h : (Json.object ms).Reordered (.object ns))
    (hv : v.Reordered w) :
    Agree both (· = ·) (readBound place ms keyword exclusive v)
      (readBound place' ns keyword exclusive w) := by
  cases hv with
  | @number a b hab =>
    subst hab
    have hexclusive := h.lookup exclusive
    rw [readBound, readBound]
    generalize ms.lookup exclusive = x, ns.lookup exclusive = y at hexclusive
    cases hexclusive with
    | none => exact .ok rfl
    | some hxy =>
      cases hxy with
      | bool b => exact .ok rfl
      | _ => exact .error _ _
  | _ => exact .error _ _

/-- **The rule of a keyword** finds faults in the same values, however the members are ordered. -/
theorem Keyword.rule?_agrees (k : Keyword) (h : (Json.object ms).Reordered (.object ns))
    (hv : v.Reordered w) :
    Agree both (Option.Rel Rule.Agrees) (k.rule? place ms v) (k.rule? place' ns w) := by
  cases k with
  | uniqueItems =>
    cases hv with
    | bool b => cases b <;> exact .ok (by constructor; try exact .refl _)
    | _ => exact .error _ _
  | enum =>
    cases hv.shape with
    | array hitems =>
      cases hitems with
      | nil => exact .ok .none
      | cons hxy hxys => exact .ok (.some (.enum (.cons hxy hxys)))
    | _ => exact .error _ _
  | pattern =>
    cases hv with
    | string text => exact (readPattern_agrees text).map fun p q hpq => .some (hpq ▸ .refl _)
    | _ => exact .error _ _
  | multipleOf =>
    cases hv with
    | @number a b hab =>
      subst hab
      rw [rule?, rule?]
      cases Divisor.ofNumber? a with
      | none => exact .error _ _
      | some d => exact .ok (.some (.refl _))
    | _ => exact .error _ _
  | maxProperties | minProperties | maxItems | minItems | maxLength | minLength =>
    exact (readSize_agrees _ _ hv).map fun a b hab => .some (hab ▸ .refl _)
  | minimum | maximum =>
    refine (readBound_agrees _ _ h hv).map fun a b hab => ?_
    subst hab
    exact .some (.refl _)
  | _ => exact .ok .none

theorem readFormat_agrees (o : Options) (name : String) :
    Agree both (· = ·) (readFormat o place name) (readFormat o place' name) := by
  rw [readFormat, readFormat]
  split
  · exact .ok rfl
  · exact (readPattern_agrees _).map fun _ _ h => by rw [h]
  · cases Format.builtin? name with
    | none => exact .error _ _
    | some test => exact .ok rfl

/-! ## Members -/

theorem checkKeywords_agrees {o : Options} (ho : o.keywords = [])
    (h : (Json.object ms).Reordered (.object ns)) :
    Agree both (· = ·) (checkKeywords o place ms) (checkKeywords o place' ns) where
  succeeds _ := by
    rw [checkKeywords_succeeds ho, checkKeywords_succeeds ho]
    exact h.members.forall_iff fun e _ f _ hef => by rw [hef.1]
  results _ _ _ _ := rfl

theorem skipsNull_eq (h : (Json.object ms).Reordered (.object ns)) :
    skipsNull ms = skipsNull ns := by
  have htype : OptionReordered _ _ := h.lookup "type"
  rw [skipsNull, skipsNull]
  generalize ms.lookup "type" = x, ns.lookup "type" = y at htype
  cases htype with
  | none => rfl
  | some hvw =>
    cases hvw.shape with
    | array hitems =>
      rw [Bool.eq_iff_iff]
      simp only [List.any_eq_true]
      refine (Paired.of_forall₂ hitems).exists_iff fun v _ w _ hvw => ?_
      cases hvw <;> rfl
    | _ => rfl

/-! ## Declared names -/

namespace Declared

theorem namesIn_paired {x y : Option Json} (h : OptionReordered x y) :
    Paired (· = ·) (namesIn x) (namesIn y) := by
  cases h with
  | none => exact .nil
  | some hvw =>
    cases hvw.shape with
    | object _ hmembers _ => exact hmembers.map fun _ _ hef => hef.1
    | _ => exact .nil

theorem namesOf_paired (h : (Json.object ms).Reordered (.object ns)) :
    Paired (· = ·) (namesOf ms) (namesOf ns) := by
  have htuple := tuple?_rel h
  rw [namesOf_eq, namesOf_eq]
  generalize tuple? ms = x, tuple? ns = y at htuple
  cases htuple with
  | some hxs =>
    dsimp only
    rw [hxs.length_eq]
    exact .refl fun _ _ => rfl
  | none => exact namesIn_paired (h.lookup "properties")

theorem read_agrees (h : (Json.object ms).Reordered (.object ns)) :
    Agree both (fun d d' => ∀ name, d.has name = d'.has name) (read place ms)
      (read place' ns) := by
  have hpatterns := namesIn_paired (h.lookup "patternProperties")
  refine (Agree.mapM_paired hpatterns (S := (· = ·)) fun x _ y _ hxy => ?_).map ?_
  · rw [hxy]
    exact readPattern_agrees y
  · intro patterns patterns' hpatterns name
    rw [has, has, Bool.eq_iff_iff, Bool.or_eq_true, Bool.or_eq_true, List.contains_iff_mem,
      List.contains_iff_mem, List.any_eq_true, List.any_eq_true]
    have hnames : name ∈ namesOf ms ↔ name ∈ namesOf ns := by
      simpa using (namesOf_paired h).exists_iff (P := (name = ·)) (Q := (name = ·))
        fun x _ y _ hxy => by rw [hxy]
    exact or_congr hnames (hpatterns.exists_iff fun p _ q _ hpq => by rw [hpq])

end Declared

end JsonSchema
