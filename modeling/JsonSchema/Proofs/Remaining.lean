import JsonSchema.Proofs.Filtering
import JsonSchema.Proofs.Judging

/-!
# What a successful run leaves wrong

A check of a mutating run looks at the value once. What a later check strips or fills in, it does
not see. So a run that reports nothing may leave a value that is not accepted, but only where it has
altered the value: each violation that is left is of a value that another one stood in the place of,
of a part that came or went, or it lies in an object that got a member on which a schema depends.

* `Scope.Directs.judging`: a run that reports nothing has judged what is left;
* `Validator.DependsAt`: the members on which a schema depends, by the path of the object;
* `Validator.validateMut_remaining`: violations are left only where a run has altered the value.
-/

namespace JsonSchema

/-! ## Nodes -/

section

variable {s : Scope} {m : Changes} {N : NameChanges} {T : Path → String → Prop} {n : Node}
  {depth : Nat} {p : Site} {v w : Json}

theorem Leaves.quiet_look {f : StateT Tally Option Unit} {vs : List Violation}
    (hf : ∀ t, f t = some ((), t.reportAll vs)) : Leaves (quietly f) fun _ => vs = [] := by
  intro t a t' ht
  obtain ⟨hrun, hcount⟩ := quietly_eq_some.1 ht
  cases (hf t).symm.trans hrun
  rw [Tally.count_reportAll] at hcount
  exact List.length_eq_zero_iff.1 (by omega)

theorem Heading.child?_of_missing {h : Heading} {name : String} (hv : h.missing v = [])
    (hw : name ∈ h.missing w) (hvw : v.Reshaped N w) :
    (v.child? (.name name)).isSome ∧ w.child? (.name name) = none := by
  cases w with
  | object ns =>
    obtain ⟨hname, hlacks⟩ := List.mem_filter.1 hw
    have hnone : ns.lookup name = none := by simpa [Members.has] using hlacks
    cases hvw with
    | refl =>
      rw [hv] at hw
      cases hw
    | @object _ ms =>
      rw [missing, List.filter_eq_nil_iff] at hv
      have hhas := hv name hname
      rw [Bool.not_eq_true', Bool.not_eq_false] at hhas
      exact ⟨hhas, hnone⟩
  | _ => cases hw

/-- A node whose checks have judged what they report has judged what it reports. -/
theorem Node.changing_judges (hN : N.Directed) {check : Check → Json → StateT Tally Option Json}
    {missing wrongType : Json → StateT Tally Option Unit} (hd : v.distinct)
    (hc : ∀ c ∈ n.checks, ∀ v, v.distinct → Leaves (check c v) fun w =>
      v.MayBecome (N.under p.path) w ∧
        Judged N T p.path (fun u => c.reports s n.heading u p) v w)
    (hm : ∀ v, Leaves (missing v) fun _ => n.heading.missing v = [])
    (ht : ∀ v, Leaves (wrongType v) fun _ => False) :
    Leaves (n.changing s.greedy check missing wrongType v) fun w =>
      v.MayBecome (N.under p.path) w ∧ Judged N T p.path (fun u => n.reports s u p) v w := by
  obtain ⟨h, head, tail⟩ := n
  have hrun : ∀ cs : List Check, (∀ c ∈ cs, c ∈ (mk h head tail).checks) → ∀ v, v.distinct →
      Leaves (cs.foldlM (fun v c => check c v) v) fun w => v.MayBecome (N.under p.path) w ∧
        Judged N T p.path (fun u => cs.flatMap fun c => c.reports s h u p) v w :=
    fun cs hcs v hd =>
      Leaves.judging hN _ (fun v => v) _ hd fun c hmem w hw => hc c (hcs c hmem) w hw
  rw [changing]
  split
  · next haccepts =>
    refine (hrun head (fun c => List.mem_append_left tail) v hd).bind fun w hw => ?_
    refine (hm w).bind fun _ hmissing => ?_
    have hdw := hw.1.1 hd
    rw [if_pos (.inl hmissing)]
    refine (hrun tail (fun c => List.mem_append_right head) w hdw).imp fun x hx => ?_
    refine ⟨hw.1.trans (hN.under p.path) hx.1, fun u hu hxu y hy => ?_⟩
    have hwu := hx.1.2.trans (hN.under p.path).toOrderly hxu
    have hvu := hw.1.2.trans (hN.under p.path).toOrderly hwu
    have hhead := hw.2.later hN hx.1.2
    have htail := hx.2.widen hN hw.1.2 hx.1.2 hdw
    beta_reduce at hy
    rw [reports_mk, hvu.acceptsType, if_pos haccepts] at hy
    rcases List.mem_append.1 hy with hy | hy
    · rcases List.mem_append.1 hy with hy | hy
      · exact hhead u hu hxu y hy
      · obtain ⟨name, hname, rfl⟩ := List.mem_map.1 hy
        obtain ⟨hthere, hgone⟩ := Heading.child?_of_missing hmissing hname hwu
        have haltered : (violation h (p.down (.name name)).path .required (some u)
            (h.place "required")).AlteredFrom T p.path w u :=
          .part (List.prefix_refl _) (by simp [hthere, hgone])
        exact haltered.widen hN hw.1.2 hwu hdw hu
    · split at hy
      · exact htail u hu hxu y hy
      · cases hy
  · exact (ht v).bind fun _ h => h.elim

/-! ## Runs -/

theorem Check.reference_judges {h : Heading} {text : String} {place : Path}
    (target : ∀ k, s.subroutines.lookup (.reference text) = some k → .reference text ∉ p.entered →
      Leaves (quietly (k.apply s m depth v (p.enter (.reference text)))) fun w =>
        Judged N T p.path (fun u => k.reports s u (p.enter (.reference text))) v w) :
    Leaves (quietly ((reference text place).apply s m depth h v p)) fun w =>
      Judged N T p.path (fun u => (reference text place).reports s h u p) v w := by
  intro t w t' ht
  obtain ⟨hrun, hcount⟩ := quietly_eq_some.1 ht
  rw [apply_reference] at hrun
  split at hrun
  · next hnone =>
    refine .nothing fun u _ => ?_
    rw [reports_reference, answers, hnone]
    rfl
  · next k hk =>
    split at hrun
    · next he =>
      refine .nothing fun u _ => ?_
      rw [reports_reference, answers, hk]
      simp [he, Heading.demandReports]
    · next he =>
      obtain ⟨⟨x, inner⟩, hx, hw⟩ := Option.bind_eq_some_iff.mp hrun
      cases hw
      have hinner : inner.count = 0 := by
        by_contra hne
        have hfails : (inner.count == 0) = false := by simpa using hne
        simp only [hfails, Heading.demand, Bool.false_eq_true, if_false,
          Tally.count_report] at hcount
        omega
      have hjudged := target k hk he _ _ _ (quietly_eq_some.2 ⟨hx, hinner⟩)
      intro u hu hwu y hy
      refine .value (path_of_flat rfl hy) ?_
      beta_reduce at hy
      rw [reports_reference, answers, hk] at hy
      simp only [he, decide_false, Bool.false_or] at hy
      have hfails : k.reports s u (p.enter (.reference text)) ≠ [] := by
        intro hnil
        have haccepts : (Tally.passes fun t => k.check s u (p.enter (.reference text)) t) = true :=
          Node.reports_eq_nil.1 hnil
        rw [haccepts] at hy
        cases hy
      obtain ⟨z, hz⟩ := List.exists_mem_of_ne_nil _ hfails
      obtain ⟨q, -, haltered⟩ := hjudged u hu hwu z hz
      exact haltered.ne

theorem Check.schemaFormat_judges {h : Heading} {name : String}
    (target : ∀ k, s.subroutines.lookup (.format name) = some k → .format name ∉ p.entered →
      Leaves (quietly (k.apply s m depth v (p.enter (.format name)))) fun w =>
        Judged N T p.path (fun u => k.reports s u (p.enter (.format name))) v w) :
    Leaves (quietly ((schemaFormat name).apply s m depth h v p)) fun w =>
      Judged N T p.path (fun u => (schemaFormat name).reports s h u p) v w := by
  intro t w t' ht
  obtain ⟨hrun, hcount⟩ := quietly_eq_some.1 ht
  rw [apply_schemaFormat] at hrun
  split at hrun
  · next hnone =>
    refine .nothing fun u _ => ?_
    rw [reports_schemaFormat, hnone]
  · next k hk =>
    split at hrun
    · next he =>
      refine .nothing fun u _ => ?_
      rw [reports_schemaFormat, hk]
      simp [he]
    · next he =>
      have hjudged := target k hk he _ _ _ (quietly_eq_some.2 ⟨hrun, hcount⟩)
      refine hjudged.congr fun u _ => ?_
      rw [reports_schemaFormat, hk]
      simp [he]

variable {G : Path → Node → Prop}

/-- A run of a node that reports nothing has judged its value. -/
def Node.Judging (s : Scope) (m : Changes) (N : NameChanges) (T : Path → String → Prop)
    (depth : Nat) (p : Site) (n : Node) : Prop :=
  ∀ v : Json, v.distinct → Leaves (quietly (n.apply s m depth v p)) fun w =>
    Judged N T p.path (fun u => n.reports s u p) v w

/-- Runs of certain nodes go one way, fill in values with distinct names, and depend on certain
members. -/
structure Scope.Directs (s : Scope) (m : Changes) (G : Path → Node → Prop) (N : NameChanges)
    (T : Path → String → Prop) : Prop where
  directed : N.Directed
  keeps : s.Keeps m G fun p => Json.MayBecome (N.under p)
  fills : ∀ {p n c k seg x}, G p n → c ∈ n.checks → c.Fills k seg →
    k.heading.filling? m = some x → x.distinct
  depends : ∀ {p n entries name k}, G p n → .dependencies entries ∈ n.checks →
    (name, .schema k) ∈ entries → T p name

theorem Scope.Keeps.becomes (hkeeps : s.Keeps m G fun p => Json.MayBecome (N.under p))
    (hn : G p.path n) (v : Json) :
    Leaves (quietly (n.apply s m depth v p)) (v.MayBecome (N.under p.path)) :=
  (hkeeps.apply_leaves hn v).quieted

theorem Scope.Keeps.check_becomes (hkeeps : s.Keeps m G fun p => Json.MayBecome (N.under p))
    (hn : G p.path n) {c : Check} (hc : c ∈ n.checks) (h : Heading) (v : Json) :
    Leaves ((Check.applying s m depth h p).quiet.check m c v) (v.MayBecome (N.under p.path)) := by
  refine Changer.check_leaves (hkeeps.admits hn hc)
    (fun k hk v => hkeeps.becomes (hkeeps.here hn hc hk) v) (fun k seg hk x => ?_)
    (fun text place hct v => ?_) (fun name hct v => ?_) v
  · cases depth with
    | zero =>
      intro t w t' ht
      cases ht
    | succ depth => exact hkeeps.becomes (p := p.down seg) (hkeeps.below hn hc hk) x
  · subst hct
    exact (Check.reference_leaves (hkeeps.refl _) text place (fun k hk he v =>
      hkeeps.apply_leaves (p := p.enter _) (hkeeps.target hn hc rfl hk) v) v).quieted
  · subst hct
    exact (Check.schemaFormat_leaves (hkeeps.refl _) name (fun k hk he v =>
      hkeeps.apply_leaves (p := p.enter _) (hkeeps.target hn hc rfl hk) v) v).quieted

/-- The steps of a run at the parts of a check judge, if the nodes do that they run. -/
theorem Scope.Directs.judges (hs : s.Directs m G N T) (hn : G p.path n) {c : Check}
    (hc : c ∈ n.checks) (h : Heading)
    (here : ∀ k ∈ c.nodesHere, G p.path k → k.Judging s m N T depth p)
    (below : ∀ k ∈ c.nodesBelow, ∀ level < depth, ∀ seg, G (p.path ++ [seg]) k →
      k.Judging s m N T level (p.down seg))
    (target : ∀ t k, c.target? = some t → s.subroutines.lookup t = some k → t ∉ p.entered →
      G p.path k → k.Judging s m N T depth (p.enter t)) :
    c.Judges s m N T (Check.applying s m depth h p).quiet h p where
  admits := hs.keeps.admits hn hc
  becomes := hs.keeps.check_becomes hn hc h
  fills k seg x hk hx := hs.fills hn hc hk hx
  depends := by
    rintro entries name k rfl he
    exact hs.depends hn hc he
  here := by
    intro k hk v hd t w t' ht
    have hk' := hs.keeps.here hn hc hk
    exact ⟨hs.keeps.becomes hk' v t w t' ht, here k hk.mem_here hk' v hd t w t' ht⟩
  below := by
    intro k seg hk x hd t w t' ht
    have hk' := hs.keeps.below hn hc hk
    cases depth with
    | zero => cases ht
    | succ depth =>
      exact ⟨hs.keeps.becomes (p := p.down seg) hk' x t w t' ht,
        below k hk.mem_below depth (Nat.lt_succ_self _) seg hk' x hd t w t' ht⟩
  reference := by
    rintro text place rfl v hd
    exact Check.reference_judges fun k hk he =>
      target _ k rfl hk he (hs.keeps.target hn hc rfl hk) v hd
  schemaFormat := by
    rintro name rfl v hd
    exact Check.schemaFormat_judges fun k hk he =>
      target _ k rfl hk he (hs.keeps.target hn hc rfl hk) v hd
  look v := Leaves.quiet_look fun t => congrArg (fun t => some ((), t)) (c.check_eq s v p h t)
  names := by
    intro names place v
    have hlook : ∀ t, (Check.applying s m depth h p).names names place v t =
        some ((), t.reportAll (h.demandReports
          (names.all fun name => (v.get? name).isSome) .dependencies v place p)) := by
      intro t
      show some ((), (Dependency.names names place).check s h v p t) = _
      rw [Dependency.check]
      exact congrArg (fun t => some ((), t)) (h.emits_demand _ .dependencies v place p t)
    exact (Leaves.quiet_look hlook).imp fun _ hnil => Heading.demandReports_eq_nil.1 hnil
  absent k seg := Leaves.quiet_look fun t => congrArg (fun t => some ((), t))
    (k.emits_checkAbsent (p.down seg) t)

/-- The step for a node. -/
theorem Node.judging_of_checks (hN : N.Directed)
    (hc : ∀ c ∈ n.checks, ∀ v, v.distinct →
      Leaves (quietly ((Check.applying s m depth n.heading p).check m c v)) fun w =>
        v.MayBecome (N.under p.path) w ∧
          Judged N T p.path (fun u => c.reports s n.heading u p) v w) :
    n.Judging s m N T depth p := by
  intro v hd
  have hmissing (v : Json) (t : Tally) : some ((), n.heading.reportMissing v p t) =
      some ((), t.reportAll ((n.heading.missing v).map fun name =>
        violation n.heading (p.down (.name name)).path .required (some v)
          (n.heading.place "required"))) :=
    congrArg (fun t => some ((), t)) (n.heading.emits_reportMissing v p t)
  have htype (v : Json) (t : Tally) : some ((), n.heading.reportType v p t) =
      some ((), t.reportAll
        [violation n.heading p.path .type (some v) (n.heading.place "type")]) := rfl
  rw [funext (n.apply_eq s m depth p v)]
  have hquiet : quieting.rel
      (n.changing s.greedy ((Check.applying s m depth n.heading p).check m)
        (fun v t => some ((), n.heading.reportMissing v p t))
        (fun v t => some ((), n.heading.reportType v p t)) v)
      (n.changing s.greedy
        (fun c v => quietly ((Check.applying s m depth n.heading p).check m c v))
        (fun v => quietly fun t => some ((), n.heading.reportMissing v p t))
        (fun v => quietly fun t => some ((), n.heading.reportType v p t)) v) := by
    refine quieting.changing True.intro (fun c hc v => ?_) (fun v => ?_) (fun v => ?_) v
    · have hparts := (reporting_runs s m).2 c depth p n.heading
      exact quieting_quietly (hparts.check True.intro m v)
    · exact quieting_quietly (reporting_look (P := fun _ => True) (hmissing v)
        fun _ _ => True.intro)
    · exact quieting_quietly (reporting_look (P := fun _ => True) (htype v)
        fun _ _ => True.intro)
  have hchanging := Node.changing_judges (s := s) hN hd hc
    (fun v => (Leaves.quiet_look (hmissing v)).imp fun _ hnil => List.map_eq_nil_iff.1 hnil)
    fun v => (Leaves.quiet_look (htype v)).imp fun _ hnil => List.cons_ne_nil _ _ hnil
  exact Leaves.of_quieting hquiet (hchanging.imp fun w hw => hw.2)

/-- **A run that reports nothing has judged what is left**: what would be reported later has been
altered since the run began. -/
theorem Scope.Directs.judging (hs : s.Directs m G N T) (hn : G p.path n) :
    n.Judging s m N T depth p := by
  have key : (∀ (n : Node) depth p, G p.path n → n.Judging s m N T depth p) ∧
      ∀ (c : Check) depth p, ∀ n, G p.path n → c ∈ n.checks → ∀ h v, v.distinct →
        Leaves (quietly ((Check.applying s m depth h p).check m c v)) fun w =>
          v.MayBecome (N.under p.path) w ∧
            Judged N T p.path (fun u => c.reports s h u p) v w := by
    apply s.level_induction
    · intro n depth p ih hn
      exact Node.judging_of_checks hs.directed fun c hc v hd => ih c hc n hn hc n.heading v hd
    · intro c depth p here below target n hn hc h v hd
      have hjudges := hs.judges hn hc h here
        (fun k hk level hl seg => below k hk level hl seg) target
      have hparts := ((reporting_runs s m).2 c depth p h).quiet
      refine Leaves.of_quieting (hparts.check True.intro m v) fun t w t' ht => ?_
      exact ⟨hjudges.becomes v t w t' ht, Changer.check_judges hs.directed hjudges hd t w t' ht⟩
  exact key.1 n depth p hn

end

/-! ## Relations that runs keep to -/

theorem Check.Admits.and {m : Changes} {c : Check} {R R' : Json → Json → Prop}
    {P P' : Segment → Json → Json → Prop} (h : c.Admits m R P) (h' : c.Admits m R' P') :
    c.Admits m (fun v w => R v w ∧ R' v w) fun seg x y => P seg x y ∧ P' seg x y where
  refl v := ⟨h.refl v, h'.refl v⟩
  trans huv hvw := ⟨h.trans huv.1 hvw.1, h'.trans huv.2 hvw.2⟩
  partRefl seg x := ⟨h.partRefl seg x, h'.partRefl seg x⟩
  partTrans hxy hyz := ⟨h.partTrans hxy.1 hyz.1, h'.partTrans hxy.2 hyz.2⟩
  items hxs := ⟨h.items (hxs.imp fun _ _ h => h.1), h'.items (hxs.imp fun _ _ h => h.2)⟩
  members hms := ⟨h.members (hms.imp fun _ _ h => ⟨h.1, h.2.1⟩),
    h'.members (hms.imp fun _ _ h => ⟨h.1, h.2.2⟩)⟩
  replace hx hxy := ⟨h.replace hx hxy.1, h'.replace hx hxy.2⟩
  strip declared place hc hf ms :=
    ⟨h.strip declared place hc hf ms, h'.strip declared place hc hf ms⟩
  append hk hx hxy := ⟨h.append hk hx hxy.1, h'.append hk hx hxy.2⟩
  add hk hnone hx hxy := ⟨h.add hk hnone hx hxy.1, h'.add hk hnone hx hxy.2⟩

section

variable {o : Options} {schema : Json} {w : Validator} {p : Path} {n : Node}

theorem Node.RunsAt.compiled (hbuild : o.build schema = .ok w) (hn : w.root.RunsAt w.scope p n) :
    n.Compiled schema o w.subroutines := by
  obtain ⟨hroot, htable⟩ := Options.build_compiled hbuild
  induction hn with
  | root => exact hroot
  | here _ hc hk ih => exact ih.nested hc (List.mem_append_left _ hk.mem_here)
  | part _ hc hk ih => exact ih.nested hc (List.mem_append_right _ hk.mem_below)
  | target _ _ _ hk _ => exact htable _ _ hk

/-- The defaults of a build have distinct names if its documents have. -/
theorem Node.Compiled.default_distinct (hdocs : ∀ d ∈ Targets.documents schema o, d.distinct)
    (hn : n.Compiled schema o w.subroutines) {x : Json} (hx : n.heading.default = some x) :
    x.distinct := by
  obtain ⟨y, hy, hsettled⟩ := hn
  rw [hsettled.default_eq] at hx
  obtain ⟨d, hd, hinside⟩ := hy.held.inside (Json.inside_of_get? hx)
  exact hinside.distinct (hdocs d hd)

end

/-! ## Validators -/

namespace Validator

variable {o : Options} {schema : Json} {w : Validator}

/-- A schema depends on a member by its name, in an object at a path. -/
def DependsAt (w : Validator) (p : Path) (name : String) : Prop :=
  ∃ n entries k, w.root.RunsAt w.scope p n ∧ .dependencies entries ∈ n.checks ∧
    (name, .schema k) ∈ entries

theorem neverRefills_of_not_filter (h : w.options.filter = false) : w.NeverRefills := by
  rintro p name ⟨hf, -⟩
  cases h.symm.trans hf

theorem neverRefills_of_fillsNothing (hw : w.FillsNothing) : w.NeverRefills := by
  obtain ⟨hroot, htable⟩ := hw.unfilled
  have hunfilled : ∀ {p n}, w.root.RunsAt w.scope p n → n.Unfilled w.changes := by
    intro p n hn
    induction hn with
    | root => exact hroot
    | here _ hc hk ih => exact ih.nested hc (List.mem_append_left _ hk.mem_here)
    | part _ hc hk ih => exact ih.nested hc (List.mem_append_right _ hk.mem_below)
    | target _ _ _ hk _ => exact htable _ _ hk
  rintro p name - ⟨n, c, k, x, hn, hc, hk, hx⟩
  have hk' := (hunfilled hn).nested hc (List.mem_append_right _ hk.sends.mem_below)
  rw [hk'.heading] at hx
  cases hx

/-- A run of a build without refilling goes one way. -/
theorem NeverRefills.directs (hw : w.NeverRefills) (hbuild : o.build schema = .ok w)
    (hdocs : ∀ d ∈ Targets.documents schema o, d.distinct) :
    w.scope.Directs w.changes (w.root.RunsAt w.scope) w.exchange w.DependsAt := by
  have hdirected := NameChanges.directed_exchange hw
  have hfills : ∀ {p n c k seg x}, w.root.RunsAt w.scope p n → c ∈ n.checks → c.Fills k seg →
      k.heading.filling? w.changes = some x → x.distinct := by
    intro p n c k seg x hn hc hk hx
    have hk' := (hn.compiled hbuild).nested hc (List.mem_append_right _ hk.sends.mem_below)
    exact hk'.default_distinct hdocs (Heading.default_of_filling? hx)
  refine ⟨hdirected, ?_, hfills, fun hn hc he => ⟨_, _, _, hn, hc, he⟩⟩
  exact
    { refl := fun _ v => .refl _ v
      trans := fun h h' => h.trans (hdirected.under _) h'
      admits := fun hn hc =>
        (Check.admits_distinct fun k seg x hk hx => hfills hn hc hk hx).and (hw.keeps.admits hn hc)
      here := .here
      below := .part
      target := .target }

/-- **What a successful run leaves wrong, it has altered**, if it never refills what it strips. -/
theorem NeverRefills.altered (hw : w.NeverRefills) (hbuild : o.build schema = .ok w)
    (hdocs : ∀ d ∈ Targets.documents schema o, d.distinct) {v v' : Json} (hd : v.distinct)
    (h : w.validateMut v = some (.ok (), v')) {vs : List Violation}
    (hvs : w.validate v' = .error vs) : ∀ x ∈ vs, v.Altered w.DependsAt v' x.path := by
  obtain ⟨⟨u, t⟩, hrun, hu⟩ := Option.bind_eq_some_iff.1 h
  obtain ⟨hverdict, rfl⟩ := Prod.mk.inj (Option.some.inj hu)
  have hcount : t.count = 0 := by
    by_contra hne
    rw [verdict, if_neg hne] at hverdict
    cases hverdict
  have hquiet := quietly_eq_some.2 ⟨hrun, hcount⟩
  have hdirects := hw.directs hbuild hdocs
  have hbecomes := hdirects.keeps.becomes (p := {}) .root v _ _ _ hquiet
  have hjudged := hdirects.judging (p := {}) .root v hd _ _ _ hquiet
  intro x hx
  rw [validate, Node.check_eq] at hvs
  obtain ⟨y, hy, -, hpath⟩ := exists_of_verdict hvs hx
  obtain ⟨q, hq, haltered⟩ := hjudged u (hbecomes.1 hd) (.refl _ u) y hy
  rw [hpath, hq]
  exact haltered

/-- So it is where the value and the documents were read. -/
theorem NeverRefills.altered_of_isRead (hw : w.NeverRefills) (hbuild : o.build schema = .ok w)
    (hdocs : ∀ d ∈ Targets.documents schema o, d.IsRead) {v v' : Json} (hv : v.IsRead)
    (h : w.validateMut v = some (.ok (), v')) {vs : List Violation}
    (hvs : w.validate v' = .error vs) : ∀ x ∈ vs, v.Altered w.DependsAt v' x.path :=
  hw.altered hbuild (fun d hd => (hdocs d hd).distinct) hv.distinct h hvs

/-- **Violations are left only where a run has altered the value.** If a run succeeds that never
refills what it strips, each violation of the value that it leaves is at a path at which, or on the
way to which, this value differs from the given one, or in an object that got a member on which a
schema depends. A run that fills in nothing and leaves the value as it is has the right result. -/
theorem validateMut_remaining {w : Validator} {v v' : Json} {r : Except (List Violation) Unit}
    (hd : v.distinct) (h : w.validateMut v = some (r, v')) :
    (∀ {o : Options} {schema : Json}, o.build schema = .ok w →
        (∀ d ∈ Targets.documents schema o, d.distinct) → w.NeverRefills → r = .ok () →
        ∀ vs, w.validate v' = .error vs → ∀ x ∈ vs, v.Altered w.DependsAt v' x.path) ∧
      (w.FillsNothing → v' = v → w.validate v = r) := by
  constructor
  · rintro o schema hbuild hdocs hw rfl vs hvs
    exact hw.altered hbuild hdocs hd h hvs
  · rintro hw rfl
    exact validate_of_unchanged hw hd h

def emptied : Json := .object
  [("required", .array [.string "a"]), ("additionalProperties", .bool false)]

/-- Objects with at most one member, where a member is filled in. -/
def overfilled : Json := .object
  [("maxProperties", .number (.integer 1)),
    ("properties", .object [("a", .object [("default", .null)])])]

/-- Both runs succeed, and what is left wrong is that the member is gone which is required, and that
the object has one member more. A run on the empty object finds the former. -/
theorem validateMut_remaining_emptied :
    (∃ w, Options.build { filter := true } emptied = .ok w ∧
      w.validateMut (.object [("a", .null)]) = some (.ok (), .object []) ∧
        w.validate (.object []) = .error [⟨[.name "a"], .required, none⟩] ∧
          (Json.object [("a", .null)]).Altered w.DependsAt (.object []) [.name "a"] ∧
            w.validateMut (.object []) = some (w.validate (.object []), .object [])) ∧
      ∃ w, Options.build { useDefaults := true } overfilled = .ok w ∧
        w.validateMut (.object [("b", .null)]) =
          some (.ok (), .object [("b", .null), ("a", .null)]) ∧
            (Json.object [("b", .null)]).Altered w.DependsAt
              (.object [("b", .null), ("a", .null)]) [] := by
  have hstrip : ((Options.build { filter := true } emptied).toOption.map fun w =>
      (w.validateMut (.object [("a", .null)]), w.validate (.object []),
        (w.validateMut (.object [])).map Prod.snd)) = some (some (.ok (), .object []),
          .error [⟨[.name "a"], .required, none⟩], some (.object [])) := by decide +kernel
  have hfill : ((Options.build { useDefaults := true } overfilled).toOption.map fun w =>
      (w.validateMut (.object [("b", .null)]),
        w.validate (.object [("b", .null), ("a", .null)]))) =
          some (some (.ok (), .object [("b", .null), ("a", .null)]),
            .error [⟨[], .maxProperties, none⟩]) := by decide +kernel
  obtain ⟨w, hbuild, hw⟩ := Options.build_of_run hstrip
  obtain ⟨hmut, hw⟩ := Prod.mk.inj hw
  obtain ⟨hval, hagain⟩ := Prod.mk.inj hw
  obtain ⟨u, hbuild', hu⟩ := Options.build_of_run hfill
  obtain ⟨hmut', hval'⟩ := Prod.mk.inj hu
  have hdefaults : NoDefaults emptied { filter := true } :=
    .of_documents (List.forall_mem_singleton.2 (by decide))
  have hnothing := hdefaults.fillsNothing hbuild
  obtain ⟨-, -, hoptions⟩ := Options.build_eq_ok.1 hbuild'
  have hnever := neverRefills_of_not_filter (congrArg Options.filter hoptions)
  obtain ⟨⟨r, v⟩, hagain, hsame⟩ := Option.map_eq_some_iff.1 hagain
  have hr : w.validate (.object []) = r :=
    (validateMut_remaining (by decide) hagain).2 hnothing hsame
  refine ⟨⟨w, hbuild, hmut, hval, ?_, ?_⟩, u, hbuild', hmut', ?_⟩
  · exact (validateMut_remaining (by decide) hmut).1 hbuild
      (List.forall_mem_singleton.2 (by decide)) (neverRefills_of_fillsNothing hnothing) rfl _ hval _
      (List.mem_singleton.2 rfl)
  · cases hsame
    rw [hr]
    exact hagain
  · exact (validateMut_remaining (by decide) hmut').1 hbuild'
      (List.forall_mem_singleton.2 (by decide)) hnever rfl _ hval' _ (List.mem_singleton.2 rfl)

/-- A run that changes the value may accept it and leave a value that it would not accept: checks
that come before a member is stripped or filled in do not look at it again. -/
theorem validateMut_ok_of_violating :
    (∃ w, Options.build { filter := true } emptied = .ok w ∧
      w.validateMut (.object [("a", .null)]) = some (.ok (), .object []) ∧
        w.validate (.object []) ≠ .ok ()) ∧
      ∃ w, Options.build { useDefaults := true } overfilled = .ok w ∧
        w.validateMut (.object [("b", .null)]) =
          some (.ok (), .object [("b", .null), ("a", .null)]) ∧
            w.validate (.object [("b", .null), ("a", .null)]) ≠ .ok () := by
  have hstrip : ((Options.build { filter := true } emptied).toOption.map fun w =>
      (w.validateMut (.object [("a", .null)]), decide (w.validate (.object []) = .ok ()))) =
        some (some (.ok (), .object []), false) := by decide +kernel
  have hfill : ((Options.build { useDefaults := true } overfilled).toOption.map fun w =>
      (w.validateMut (.object [("b", .null)]),
        decide (w.validate (.object [("b", .null), ("a", .null)]) = .ok ()))) =
          some (some (.ok (), .object [("b", .null), ("a", .null)]), false) := by decide +kernel
  obtain ⟨w, hw, hrun⟩ := Options.build_of_run hstrip
  obtain ⟨u, hu, hrun'⟩ := Options.build_of_run hfill
  obtain ⟨hmut, hval⟩ := Prod.mk.inj hrun
  obtain ⟨hmut', hval'⟩ := Prod.mk.inj hrun'
  exact ⟨⟨w, hw, hmut, of_decide_eq_false hval⟩, u, hu, hmut', of_decide_eq_false hval'⟩

end Validator

end JsonSchema
