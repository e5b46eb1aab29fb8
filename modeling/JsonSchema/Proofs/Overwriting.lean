import JsonSchema.Proofs.Reshaping
import JsonSchema.Proofs.Structural

/-!
# Defaults in the place of given values

A run that strips and fills in may strip a member with one node and fill it in again with another
one, which finds it absent. The default then stands where a value was given. This is the only way:
if no node fills in a name that another one strips from the same object, the scalars of the given
value are in what the run leaves, or nothing is in their place.

* `Node.RunsAt`: the nodes that a run may come to with the value at a path;
* `Validator.StripsAt`, `Validator.FillsAt`: the names that they may strip and fill in;
* `Validator.NeverRefills`: no name is both;
* `Validator.neverRefills_of_structural`: structural schemas have this property;
* `Validator.validateMut_keeps_scalars`: then no scalar is replaced.
-/

namespace JsonSchema

/-! ## Nodes by the paths of their values -/

/-- A run of the root may come to a node with the value at a path. -/
inductive Node.RunsAt (s : Scope) (root : Node) : Path → Node → Prop
  | root : RunsAt s root [] root
  | here {p : Path} {n k : Node} {c : Check} : RunsAt s root p n → c ∈ n.checks → c.Sends k none →
      RunsAt s root p k
  | part {p : Path} {n k : Node} {c : Check} {seg : Segment} : RunsAt s root p n → c ∈ n.checks →
      c.Sends k (some seg) → RunsAt s root (p ++ [seg]) k
  | target {p : Path} {n k : Node} {c : Check} {t : Target} : RunsAt s root p n → c ∈ n.checks →
      c.target? = some t → s.subroutines.lookup t = some k → RunsAt s root p k

/-- Names that are taken away and names that are added, by the path of the object. -/
def NameChanges.exchange (lost gained : Path → String → Prop) : NameChanges := fun p names names' =>
  (∀ name ∈ names, name ∉ names' → lost p name) ∧ ∀ name ∈ names', name ∉ names → gained p name

theorem NameChanges.orderly_exchange {lost gained : Path → String → Prop}
    (h : ∀ p name, lost p name → ¬gained p name) : (exchange lost gained).Orderly where
  refl _ _ := ⟨fun _ hmem hnot => absurd hmem hnot, fun _ hmem hnot => absurd hmem hnot⟩
  trans := by
    rintro p a b c ⟨hlost, hgained⟩ ⟨hlost', hgained'⟩
    constructor
    · intro name ha hc
      by_cases hb : name ∈ b
      · exact hlost' name hb hc
      · exact hlost name ha hb
    · intro name hc ha
      by_cases hb : name ∈ b
      · exact hgained name hb ha
      · exact hgained' name hc hb
  between := by
    rintro p a b c name ⟨hlost, -⟩ ⟨-, hgained'⟩ ha hc
    by_contra hb
    exact h p name (hlost name ha hb) (hgained' name hc hb)

def NameChanges.inOrder (N : NameChanges) : NameChanges := fun p names names' =>
  N p names names' ∧ names.filter (· ∈ names') = names'.filter (· ∈ names)

theorem NameChanges.Orderly.inOrder {N : NameChanges} (hN : N.Orderly) : N.inOrder.Orderly where
  refl p names := ⟨hN.refl p names, rfl⟩
  trans := by
    rintro p a b c ⟨hab, horder⟩ ⟨hbc, horder'⟩
    refine ⟨hN.trans hab hbc, ?_⟩
    have hmem : ∀ name ∈ a, name ∈ c → name ∈ b := fun name ha hc => hN.between hab hbc ha hc
    have ha : a.filter (· ∈ c) = (a.filter (· ∈ b)).filter (· ∈ c) := by
      rw [List.filter_filter]
      exact List.filter_congr fun name hname => by simpa using hmem name hname
    have hc : c.filter (· ∈ a) = (c.filter (· ∈ b)).filter (· ∈ a) := by
      rw [List.filter_filter]
      exact List.filter_congr fun name hname => by simpa using fun h => hmem name h hname
    rw [ha, hc, horder, ← horder', List.filter_filter, List.filter_filter]
    exact List.filter_congr fun name _ => Bool.and_comm _ _
  between h h' := hN.between h.1 h'.1

namespace Validator

/-- A run may strip a member by its name from an object at a path. -/
def StripsAt (w : Validator) (p : Path) (name : String) : Prop :=
  w.changes.filter = true ∧ ∃ n declared place, w.root.RunsAt w.scope p n ∧
    .closed declared place ∈ n.checks ∧ declared.has name = false

/-- A run may fill in a member of an object at a path. -/
def FillsAt (w : Validator) (p : Path) (name : String) : Prop :=
  ∃ n c k x, w.root.RunsAt w.scope p n ∧ c ∈ n.checks ∧ c.Fills k (.name name) ∧
    k.heading.filling? w.changes = some x

/-- No member is filled in where a member of its name may be stripped. -/
def NeverRefills (w : Validator) : Prop := ∀ p name, w.StripsAt p name → ¬w.FillsAt p name

def exchange (w : Validator) : NameChanges := (NameChanges.exchange w.StripsAt w.FillsAt).inOrder

/-- **What a run exchanges** if it never refills: names that it may strip are gone, and names that
it may fill in are new. -/
theorem NeverRefills.keeps {w : Validator} (hw : w.NeverRefills) :
    w.scope.Keeps w.changes (w.root.RunsAt w.scope)
      fun p => Json.Reshaped fun q => w.exchange (p ++ q) := by
  refine Scope.keeps_reshaping (NameChanges.orderly_exchange hw).inOrder
    (fun {p n declared place} hn hc hf names => ?_)
    (fun {p n c k name x} hn hc hk hx names hnew => ?_) .here .part .target
  · refine ⟨⟨fun name hmem hnot => ⟨hf, n, declared, place, hn, hc, ?_⟩, fun name hmem hnot => ?_⟩,
      ?_⟩
    · rw [← Bool.not_eq_true]
      exact fun hhas => hnot (List.mem_filter.2 ⟨hmem, hhas⟩)
    · exact absurd (List.mem_filter.1 hmem).1 hnot
    · have hkept : (names.filter declared.has).filter (· ∈ names) = names.filter declared.has :=
        List.filter_eq_self.2 fun name hname => by simpa using (List.mem_filter.1 hname).1
      rw [hkept]
      exact List.filter_congr fun name hname => by simp [hname]
  · refine ⟨⟨fun key hmem hnot => ?_, fun key hmem hnot => ?_⟩, ?_⟩
    · exact absurd (List.mem_append_left _ hmem) hnot
    · rcases List.mem_append.1 hmem with hmem | hmem
      · exact absurd hmem hnot
      · obtain rfl := List.mem_singleton.1 hmem
        exact ⟨n, c, k, x, hn, hc, hk, hx⟩
    · have hkept : names.filter (· ∈ names) = names :=
        List.filter_eq_self.2 fun key hkey => by simpa using hkey
      have hall : names.filter (· ∈ names ++ [name]) = names :=
        List.filter_eq_self.2 fun key hkey => by simp [hkey]
      rw [hall, List.filter_append, hkept]
      simp [hnew]

theorem NeverRefills.reshapes {w : Validator} (hw : w.NeverRefills) {depth : Nat} (v : Json) :
    Leaves (w.root.apply w.scope w.changes depth v {}) (v.Reshaped w.exchange) :=
  hw.keeps.apply_leaves (p := {}) .root v

/-- **No given scalar is replaced by a default**, whatever is stripped and filled in, if no member
is filled in where one may be stripped: where there is a value at the path of a scalar that was
given, it is the same scalar. -/
theorem validateMut_keeps_scalars {w : Validator} (hw : w.NeverRefills) {depth : Nat} {v v' : Json}
    {r : Except (List Violation) Unit} (h : w.validateMutWithin depth v = some (r, v')) {p : Path}
    {x y : Json} (hx : v.at? p = some x) (hscalar : x.isScalar = true) (hy : v'.at? p = some y) :
    y = x := by
  obtain ⟨⟨u, t⟩, hrun, hu⟩ := Option.bind_eq_some_iff.1 h
  cases hu
  exact ((hw.reshapes v _ _ _ hrun).at? hx hy).eq_of_isScalar hscalar

end Validator

/-! ## Nodes that divide values -/

section

variable {s : Scope} {root n n' : Node} {levels : Nat} {p : Path}

theorem Node.Divided.of_runsAt (hroot : root.Divided levels) (h : root.RunsAt s p n) :
    ∃ levels, n.Divided levels := by
  induction h with
  | root => exact ⟨levels, hroot⟩
  | here _ hc hk ih =>
    obtain ⟨_, hn⟩ := ih
    exact absurd hk ((hn.parting hc).here _)
  | part _ hc hk ih =>
    obtain ⟨_, hn⟩ := ih
    exact ⟨_, hn.nested hc hk⟩
  | target _ hc ht _ ih =>
    obtain ⟨_, hn⟩ := ih
    rw [(hn.parting hc).target] at ht
    cases ht

theorem Node.Divided.runsAt_cases (hroot : root.Divided levels) (h : root.RunsAt s p n) :
    p = [] ∧ n = root ∨ ∃ q m c seg, p = q ++ [seg] ∧ root.RunsAt s q m ∧ c ∈ m.checks ∧
      c.Sends n (some seg) := by
  cases h with
  | root => exact .inl ⟨rfl, rfl⟩
  | here hm hc hk =>
    obtain ⟨_, hm⟩ := hroot.of_runsAt hm
    exact absurd hk ((hm.parting hc).here _)
  | part hm hc hk => exact .inr ⟨_, _, _, _, rfl, hm, hc, hk⟩
  | target hm hc ht _ =>
    obtain ⟨_, hm⟩ := hroot.of_runsAt hm
    rw [(hm.parting hc).target] at ht
    cases ht

/-- **One node for each path**: a node that divides values comes to each part with one node. -/
theorem Node.Divided.runsAt_unique (hroot : root.Divided levels) (h : root.RunsAt s p n)
    (h' : root.RunsAt s p n') : n = n' := by
  induction p using List.reverseRecOn generalizing n n' with
  | nil =>
    rcases hroot.runsAt_cases h with ⟨-, rfl⟩ | ⟨q, m, c, seg, hp, -⟩
    · rcases hroot.runsAt_cases h' with ⟨-, rfl⟩ | ⟨q, m, c, seg, hp, -⟩
      · rfl
      · simp at hp
    · simp at hp
  | append_singleton p seg ih =>
    rcases hroot.runsAt_cases h with ⟨hp, -⟩ | ⟨q, m, c, seg, hp, hm, hc, hk⟩
    · simp at hp
    rcases hroot.runsAt_cases h' with ⟨hp', -⟩ | ⟨q', m', c', seg', hp', hm', hc', hk'⟩
    · simp at hp'
    obtain ⟨rfl, hseg⟩ := List.append_inj' hp rfl
    obtain ⟨rfl, hseg'⟩ := List.append_inj' hp' rfl
    cases hseg
    cases hseg'
    -- the parts above are the same, and what comes to this part there is one check with one node
    obtain rfl := ih hm hm'
    obtain ⟨_, hdivided⟩ := hroot.of_runsAt hm
    obtain rfl := hdivided.eq_of_covers hc hc' (.sent hk) (.sent hk')
    exact (hdivided.parting hc).single hk hk'

end

namespace Validator

variable {o : Options} {schema : Json} {w : Validator}

/-- The check that fills in a member covers its name, and so does the one that strips it. -/
theorem neverRefills_of_divided {levels : Nat} (hroot : w.root.Divided levels) :
    w.NeverRefills := by
  rintro p name ⟨-, n, declared, place, hn, hclosed, hname⟩ ⟨n', c, k, x, hn', hc, hk, -⟩
  obtain rfl := hroot.runsAt_unique hn hn'
  obtain ⟨_, hdivided⟩ := hroot.of_runsAt hn
  cases hdivided.eq_of_covers hclosed hc (.rejected hname) (.sent hk.sends)
  cases hk

/-- **Structural schemas never refill** what they strip. -/
theorem neverRefills_of_structural (hbuild : o.build schema = .ok w) (hs : schema.Structural o)
    (hd : schema.distinct) : w.NeverRefills :=
  neverRefills_of_divided (Options.root_divided hbuild hs hd)

def guarded : Json := .object
  [("properties", .object [("role", .object [("default", .string "user")]),
      ("name", .object [("default", .string "none")])]),
    ("additionalProperties", .bool false)]

theorem validateMut_keeps_scalars_guarded :
    ∃ w, Options.build { filter := true } guarded = .ok w ∧ w.NeverRefills ∧
      w.validateMut (.object [("x", .null), ("role", .string "admin")]) =
        some (.ok (), .object [("role", .string "admin"), ("name", .string "none")]) ∧
        ∀ y, (Json.object [("role", .string "admin"), ("name", .string "none")]).at?
          [.name "role"] = some y → y = .string "admin" := by
  have hrun : ((Options.build { filter := true } guarded).toOption.map fun w =>
      w.validateMut (.object [("x", .null), ("role", .string "admin")])) =
        some (some (.ok (), .object [("role", .string "admin"), ("name", .string "none")])) := by
    decide +kernel
  obtain ⟨w, hbuild, hw⟩ := Options.build_of_run hrun
  have hstructural : guarded.Structural { filter := true } :=
    .of_mentions (fun _ _ h => by cases h) (by decide)
  have hrefills : w.NeverRefills := neverRefills_of_structural hbuild hstructural (by decide)
  refine ⟨w, hbuild, hrefills, hw, fun y hy => ?_⟩
  exact validateMut_keeps_scalars hrefills hw (p := [.name "role"]) rfl rfl hy

def contradictory : Json := .object
  [("allOf", .array [.object [("additionalProperties", .bool false)]]),
    ("properties", .object [("role", .object [("default", .string "user")])])]

/-- What `allOf` strips, `properties` of the same schema fills in: the role that was given is
replaced by the default. -/
theorem validateMut_replaces_scalar :
    ∃ w v', Options.build { filter := true } contradictory = .ok w ∧
      w.validateMut (.object [("role", .string "admin")]) = some (.ok (), v') ∧
        (Json.object [("role", .string "admin")]).at? [.name "role"] = some (.string "admin") ∧
          v'.at? [.name "role"] = some (.string "user") := by
  have hrun : ((Options.build { filter := true } contradictory).toOption.map fun w =>
      w.validateMut (.object [("role", .string "admin")])) =
        some (some (.ok (), .object [("role", .string "user")])) := by decide +kernel
  obtain ⟨w, hbuild, hw⟩ := Options.build_of_run hrun
  exact ⟨w, _, hbuild, hw, rfl, rfl⟩

end Validator

end JsonSchema
