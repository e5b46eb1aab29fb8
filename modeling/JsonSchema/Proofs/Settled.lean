import JsonSchema.Proofs.Positions

/-!
# Tables of a build

A build only adds to the table of compiled targets, and adds each target once. Compiling one of its
schemas again when the table is complete gives the same node and adds nothing.

* `Plan.Extends`: how a step changes the table;
* `Plan.Settled`: a schema compiles to a node against a table as it is;
* `Plan.Complete`: what the table of a build is.
-/

namespace JsonSchema

/-! ## Steps extend the table -/

/-- A table is extended by targets of the plan that are not open, each once. -/
structure Plan.Extends (plan : Plan) (opened : List Target) (table table' : Subroutines) :
    Prop where
  suffix : table <:+ table'
  added : ∀ e ∈ table', e ∈ table ∨ (plan.targets.lookup e.1).isSome ∧ e.1 ∉ opened
  nodup : (table.map Prod.fst).Nodup → (table'.map Prod.fst).Nodup

namespace Plan

variable {plan : Plan} {opened : List Target}

theorem Extends.refl (table : Subroutines) : plan.Extends opened table table :=
  ⟨List.suffix_rfl, fun _ he => .inl he, id⟩

theorem Extends.trans {t₁ t₂ t₃ : Subroutines} (h : plan.Extends opened t₁ t₂)
    (h' : plan.Extends opened t₂ t₃) : plan.Extends opened t₁ t₃ where
  suffix := h.suffix.trans h'.suffix
  added e he := (h'.added e he).elim (h.added e) .inr
  nodup ht := h'.nodup (h.nodup ht)

theorem Extends.cons {k : Target} {n : Node} {table mid : Subroutines}
    (h : plan.Extends (k :: opened) table mid) (hk : k ∉ opened) (htable : table.lookup k = none)
    (hplan : (plan.targets.lookup k).isSome) : plan.Extends opened table ((k, n) :: mid) := by
  have hmid (e) (he : e ∈ mid) : e ∈ table ∨ (plan.targets.lookup e.1).isSome ∧ e.1 ∉ k :: opened :=
    h.added e he
  refine ⟨h.suffix.trans (List.suffix_cons _ _), ?_, fun ht => ?_⟩
  · refine List.forall_mem_cons.2 ⟨.inr ⟨hplan, hk⟩, fun e he => ?_⟩
    exact (hmid e he).imp_right (And.imp_right fun hne ho => hne (List.mem_cons_of_mem k ho))
  · refine List.nodup_cons.2 ⟨fun hmem => ?_, h.nodup ht⟩
    obtain ⟨e, he, rfl⟩ := List.mem_map.1 hmem
    rcases hmid e he with he | ⟨-, hne⟩
    · simpa using List.lookup_eq_none_iff.1 htable e he
    · exact hne List.mem_cons_self

theorem Extends.eq {table table' : Subroutines} (h : plan.Extends opened table table')
    (h' : table' <:+ table) : table' = table :=
  h'.eq_of_length_le h.suffix.length_le

/-! ## Complete tables -/

/-- A schema compiles to a node against a table, which stays as it is. -/
def Settled (plan : Plan) (T : Subroutines) (x : Json) (n : Node) : Prop :=
  ∃ location, compileNode plan [] location x T = .ok (n, T)

/-- A step that comes to a part of the complete table `T` comes to the same result from `T`, and
what it adds has been compiled as it would be from `T`. -/
def Settles (plan : Plan) (T : Subroutines) (opened : List Target) {α : Type} (m m' : Build α) :
    Prop :=
  ∀ table a table', m table = .ok (a, table') → plan.Extends opened table table' ∧
    ((∀ k ∈ opened, (T.lookup k).isSome) → table' <:+ T → m' T = .ok (a, T) ∧
      ∀ e ∈ table', e ∈ table ∨ ∃ x, plan.targets.lookup e.1 = some x ∧ plan.Settled T x e.2)

end Plan

open Build

/-- Steps of a build and the same steps from the complete table. -/
def Alike.settling (plan : Plan) (T : Subroutines) (opened : List Target) : Alike Build Build where
  results := True
  rel m m' := plan.Settles T opened m m'
  pure h := by
    intro table b table' hb
    obtain ⟨rfl, rfl⟩ := pure_eq_ok.1 hb
    obtain rfl := h trivial
    exact ⟨.refl _, fun _ _ => ⟨rfl, fun _ he => .inl he⟩⟩
  bind hx hf := by
    intro table b table' h
    obtain ⟨a, mid, ha, hb⟩ := bind_eq_ok.1 h
    obtain ⟨hext, hx⟩ := hx table a mid ha
    obtain ⟨hext', hf⟩ := hf a a (fun _ => rfl) mid b table' hb
    refine ⟨hext.trans hext', fun hopen hT => ?_⟩
    obtain ⟨ha, hnew⟩ := hx hopen (hext'.suffix.trans hT)
    obtain ⟨hb, hnew'⟩ := hf hopen hT
    exact ⟨bind_eq_ok.2 ⟨a, T, ha, hb⟩, fun e he => (hnew' e he).elim (hnew e) .inr⟩

section Settling

variable {plan : Plan} {T : Subroutines}

theorem lookup_isSome_of_suffix {table : Subroutines} {k : Target} (h : table <:+ T)
    (hk : (table.lookup k).isSome) : (T.lookup k).isSome := by
  obtain ⟨front, rfl⟩ := h
  rw [List.lookup_append, Option.isSome_or, hk, Bool.or_true]

theorem compileTarget_of_lookup {opened : List Target} {place : Path} {k : Target}
    (h : (T.lookup k).isSome) : compileTarget plan opened place k T = .ok (true, T) := by
  obtain ⟨n, hn⟩ := Option.isSome_iff_exists.1 h
  rw [compileTarget_run, hn]
  split <;> rfl

/-- **Compiling settles**: a schema that has been compiled on the way to a complete table compiles
to the same node from that table. -/
theorem compileNode_settles (hT : ∀ e ∈ T, (plan.targets.lookup e.1).isSome) (opened : List Target)
    (x : Json) : ∀ location, plan.Settles T opened (compileNode plan opened location x)
      (compileNode plan [] location x) := by
  induction opened, x using plan.induction with
  | step opened x hparts htargets =>
  intro location
  have hon : (Alike.settling plan T opened).On (plan.compiler opened) (plan.compiler [])
      (fun y => sizeOf y < sizeOf x) (fun _ => True) := by
    refine ⟨fun y hy place => hparts y hy place, fun k _ place => ?_, fun r => ?_⟩
    · intro table b table' h
      rcases compileTarget_cases _ _ _ h with ⟨hk, rfl, rfl⟩ | ⟨⟨htable, hk⟩, rfl, rfl⟩ |
        ⟨y, n, mid, ⟨hk, htable, hy⟩, hn, rfl, rfl⟩
      · refine ⟨.refl _, fun hopen hsub => ⟨compileTarget_of_lookup ?_, fun _ he => .inl he⟩⟩
        exact hk.elim (hopen k) (lookup_isSome_of_suffix hsub)
      · have hnone : T.lookup k = none := by
          refine List.lookup_eq_none_iff.2 fun e he => ?_
          by_contra hke
          obtain rfl : k = e.1 := by simpa using hke
          simpa [hk] using hT e he
        refine ⟨.refl _, fun _ _ => ⟨?_, fun _ he => .inl he⟩⟩
        show compileTarget plan [] place k T = _
        rw [compileTarget_run, hnone, hk]
        rfl
      · obtain ⟨hext, hsettle⟩ := htargets k y hy hk place table n mid hn
        refine ⟨hext.cons hk htable (by rw [hy]; rfl), fun hopen hsub => ?_⟩
        have hkT : (T.lookup k).isSome := lookup_isSome_of_suffix hsub (by simp)
        obtain ⟨hn, hnew⟩ := hsettle (List.forall_mem_cons.2 ⟨hkT, hopen⟩)
          ((List.suffix_cons _ _).trans hsub)
        refine ⟨compileTarget_of_lookup hkT, List.forall_mem_cons.2 ⟨.inr ?_, hnew⟩⟩
        exact ⟨y, hy, place, hn⟩
    · intro table a table' h
      obtain ⟨ha, rfl⟩ := lift_eq_ok.1 h
      exact ⟨.refl _, fun _ _ => ⟨lift_eq_ok.2 ⟨ha, rfl⟩, fun _ he => .inl he⟩⟩
  rw [compileNode_eq, compileNode_eq]
  refine hon.schema location ?_ fun _ _ _ _ => trivial
  rintro ms rfl y hy
  exact hy.sizeOf_lt

end Settling

/-! ## Tables of builds -/

theorem compileNode_extends {plan : Plan} {opened : List Target} {location : Path} {x : Json}
    {n : Node} {table table' : Subroutines}
    (h : compileNode plan opened location x table = .ok (n, table')) :
    plan.Extends opened table table' :=
  (compileNode_settles (T := []) nofun opened x location table n table' h).1

/-- What the table of a build of a schema is, beside the node of the schema. -/
structure Plan.Complete (plan : Plan) (root : Json) (n : Node) (T : Subroutines) : Prop where
  nodup : (T.map Prod.fst).Nodup
  root : plan.Settled T root n
  entry : ∀ e ∈ T, ∃ x, plan.targets.lookup e.1 = some x ∧ plan.Settled T x e.2

/-- **The table of a build is complete.** -/
theorem compile_complete {o : Options} {schema : Json} {n : Node} {T : Subroutines}
    (h : compile o schema = .ok (n, T)) : Plan.Complete ⟨o, .of schema o⟩ schema n T := by
  have hext := compileNode_extends h
  have hT (e) (he : e ∈ T) := ((hext.added e he).resolve_left List.not_mem_nil).1
  obtain ⟨hroot, hentries⟩ := (compileNode_settles hT [] schema [] [] n T h).2 nofun List.suffix_rfl
  exact ⟨hext.nodup List.nodup_nil, ⟨[], hroot⟩,
    fun e he => (hentries e he).resolve_left List.not_mem_nil⟩

/-! ## Compiling against a table -/

theorem compileTarget_extends {plan : Plan} {opened : List Target} {location : Path} {k : Target}
    {b : Bool} {table table' : Subroutines}
    (h : compileTarget plan opened location k table = .ok (b, table')) :
    plan.Extends opened table table' := by
  rcases compileTarget_cases _ _ _ h with ⟨-, -, rfl⟩ | ⟨-, -, rfl⟩ |
    ⟨y, n, mid, ⟨hk, htable, hy⟩, hn, -, rfl⟩
  · exact .refl _
  · exact .refl _
  · exact (compileNode_extends hn).cons hk htable (by rw [hy]; rfl)

/-- A target that compiles against a table, which stays as it is, has an entry or does not exist. -/
theorem lookup_of_compileTarget {plan : Plan} {location : Path} {k : Target} {b : Bool}
    {T : Subroutines} (h : compileTarget plan [] location k T = .ok (b, T)) :
    (T.lookup k).isSome ∧ b = true ∨ plan.targets.lookup k = none ∧ b = false := by
  rcases compileTarget_cases _ _ _ h with ⟨hk, hb, -⟩ | ⟨⟨-, hk⟩, hb, -⟩ |
    ⟨y, n, mid, -, hn, -, hT⟩
  · exact .inl ⟨hk.resolve_left List.not_mem_nil, hb⟩
  · exact .inr ⟨hk, hb⟩
  · have hle := (compileNode_extends hn).suffix.length_le
    rw [hT, List.length_cons] at hle
    omega

open Classical in
/-- The result of a step that leaves the table as it is. -/
noncomputable def Build.steady (T : Subroutines) {α : Type} (m : Build α) : Reads α :=
  match m T with
  | .ok (a, T') => if T' = T then .ok a else .error ⟨[], .invalidSchema⟩
  | .error e => .error e

theorem Build.steady_eq_ok {T : Subroutines} {α : Type} {m : Build α} {a : α} :
    steady T m = .ok a ↔ m T = .ok (a, T) := by
  rw [steady]
  cases m T with
  | error e => exact iff_of_false nofun nofun
  | ok r =>
    obtain ⟨b, T'⟩ := r
    by_cases hT : T' = T <;> simp [hT]

/-- Compiling against a table that stays as it is. -/
noncomputable def Plan.settled (plan : Plan) (T : Subroutines) : Compiler Reads where
  node place x := steady T (compileNode plan [] place x)
  target place k := steady T (compileTarget plan [] place k)
  read r := r

/-- Steps that leave the table as it is, and their results. -/
def Alike.steady (T : Subroutines) : Alike Build Reads where
  results := True
  rel m r := (∀ table a table', m table = .ok (a, table') → table <:+ table') ∧
    ∀ a, m T = .ok (a, T) → r = .ok a
  pure h := by
    obtain rfl := h trivial
    refine ⟨fun table a table' h => ?_, fun a h => ?_⟩
    · exact (pure_eq_ok.1 h).2 ▸ List.suffix_rfl
    · rw [← (pure_eq_ok.1 h).1]
      rfl
  bind hx hf := by
    refine ⟨fun table b table' h => ?_, fun b h => ?_⟩
    · obtain ⟨a, mid, ha, hb⟩ := bind_eq_ok.1 h
      exact (hx.1 table a mid ha).trans ((hf a a fun _ => rfl).1 mid b table' hb)
    · obtain ⟨a, mid, ha, hb⟩ := bind_eq_ok.1 h
      have hmid : mid <:+ T := (hf a a fun _ => rfl).1 mid b T hb
      obtain rfl := hmid.eq_of_length_le (hx.1 T a mid ha).length_le
      rw [hx.2 a ha]
      exact (hf a a fun _ => rfl).2 b hb

/-- A schema that is settled is compiled by compiling what is below it against the table. -/
theorem Plan.Settled.schema {plan : Plan} {T : Subroutines} {x : Json} {n : Node}
    (h : plan.Settled T x n) :
    ∃ location, (plan.settled T).schema location plan.options x = .ok n := by
  obtain ⟨location, h⟩ := h
  have hon : (Alike.steady T).On (plan.compiler []) (plan.settled T) (fun _ => True)
      (fun _ => True) := by
    refine ⟨fun y _ place => ⟨?_, fun a => steady_eq_ok.2⟩,
      fun k _ place => ⟨?_, fun a => steady_eq_ok.2⟩, fun r => ⟨?_, ?_⟩⟩
    · exact fun _ _ _ h => (compileNode_extends h).suffix
    · exact fun _ _ _ h => (compileTarget_extends h).suffix
    · exact fun _ _ _ h => (lift_eq_ok.1 h).2 ▸ List.suffix_rfl
    · exact fun a h => (lift_eq_ok.1 h).1
  rw [compileNode_eq] at h
  exact ⟨location, (hon.schema location (fun _ _ _ _ => trivial) fun _ _ _ _ => trivial).2 n h⟩

end JsonSchema
