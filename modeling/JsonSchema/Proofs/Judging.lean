import JsonSchema.Proofs.Altered
import JsonSchema.Proofs.Territories

/-!
# What a run has judged

A check of a mutating run that reports nothing has judged the value as it stood then. Later checks
may alter the value, and the check would report on what is left then. If it does, the report is of
something that has been altered since.

* `quietly`: a step that has a result only if it reports nothing;
* `Judged`: reports on later values are of what has been altered;
* `Changer.check_judges`: a check that reports nothing has judged its reports.
-/

namespace JsonSchema

/-! ## Steps that report nothing -/

def quietly {α : Type} (x : StateT Tally Option α) : StateT Tally Option α := fun t =>
  (x t).bind fun y => if y.2.count = t.count then some y else none

theorem quietly_eq_some {α : Type} {x : StateT Tally Option α} {t t' : Tally} {a : α} :
    quietly x t = some (a, t') ↔ x t = some (a, t') ∧ t'.count = t.count := by
  rw [quietly, Option.bind_eq_some_iff]
  constructor
  · rintro ⟨⟨b, u⟩, hx, hy⟩
    split at hy
    · next hcount =>
      cases hy
      exact ⟨hx, hcount⟩
    · cases hy
  · rintro ⟨hx, hcount⟩
    exact ⟨(a, t'), hx, if_pos hcount⟩

/-- A step adds no reports, or it adds some; in the first case another step does the same. -/
def quieting : Alike (StateT Tally Option) (StateT Tally Option) where
  results := True
  rel f g := ∀ t a t', f t = some (a, t') →
    t.count ≤ t'.count ∧ (t'.count = t.count → g t = some (a, t'))
  pure := by
    intro α a b hab t c t' ht
    cases hab trivial
    cases ht
    exact ⟨Nat.le_refl _, fun _ => rfl⟩
  bind := by
    intro α β x y f g hx hf t b t' ht
    obtain ⟨⟨a, u⟩, ha, hb⟩ := Option.bind_eq_some_iff.mp ht
    obtain ⟨hle, hy⟩ := hx t a u ha
    obtain ⟨hle', hg⟩ := hf a a (fun _ => rfl) u b t' hb
    refine ⟨hle.trans hle', fun hcount => ?_⟩
    have hu : u.count = t.count := by omega
    exact Option.bind_eq_some_iff.mpr ⟨(a, u), hy hu, hg (by omega)⟩

theorem quieting_quietly {α : Type} {P : Violation → Prop} {f : StateT Tally Option α}
    (h : (reporting P).rel f f) : quieting.rel f (quietly f) := by
  intro t a t' ht
  obtain ⟨vs, hf, -⟩ := h t a t' ht
  obtain rfl : t' = t.reportAll vs := by
    have hsame := ht.symm.trans (hf t)
    cases hsame
    rfl
  refine ⟨by rw [Tally.count_reportAll]; omega, fun hcount => ?_⟩
  exact quietly_eq_some.2 ⟨ht, hcount⟩

/-- The steps of a run that ends where something is reported. -/
def Changer.quiet (W : Changer (StateT Tally Option)) : Changer (StateT Tally Option) where
  visit k v below := quietly (W.visit k v below)
  reference text place v := quietly (W.reference text place v)
  schemaFormat name v := quietly (W.schemaFormat name v)
  look c v := quietly (W.look c v)
  names names place v := quietly (W.names names place v)
  absent k seg := quietly (W.absent k seg)
  down := quietly W.down

theorem Alike.Changers.quiet {P : Violation → Prop} {W : Changer (StateT Tally Option)} {c : Check}
    (h : (reporting P).Changers W W c) : quieting.Changers W W.quiet c where
  here k hk v := quieting_quietly (h.here k hk v)
  below k seg hk v := quieting_quietly (h.below k seg hk v)
  reference text place hc v := quieting_quietly (h.reference text place hc v)
  schemaFormat name hc v := quieting_quietly (h.schemaFormat name hc v)
  look v := quieting_quietly (h.look v)
  names names place v := quieting_quietly (h.names names place v)
  absent k seg := quieting_quietly (h.absent k seg)
  down := quieting_quietly h.down

/-- What a quiet counterpart of a step leaves, the step leaves when it is quiet. -/
theorem Leaves.of_quieting {α : Type} {P : α → Prop} {f g : StateT Tally Option α}
    (hfg : quieting.rel f g) (hg : Leaves g P) : Leaves (quietly f) P := by
  intro t a t' ht
  obtain ⟨hf, hcount⟩ := quietly_eq_some.1 ht
  exact hg t a t' ((hfg t a t' hf).2 hcount)

theorem Leaves.quieted {α : Type} {P : α → Prop} {f : StateT Tally Option α} (hf : Leaves f P) :
    Leaves (quietly f) P :=
  fun t a t' ht => hf t a t' (quietly_eq_some.1 ht).1

/-! ## Judged reports -/

/-- Whatever a run makes of `w` later on: what is reported of it has been altered since `v`. -/
def Judged (N : NameChanges) (T : Path → String → Prop) (path : Path)
    (reports : Json → List Violation) (v w : Json) : Prop :=
  ∀ u : Json, u.distinct → w.Reshaped (N.under path) u →
    ∀ x ∈ reports u, x.AlteredFrom T path v u

/-- What a run may make of a value, apart from what it reports. -/
def Json.MayBecome (N : NameChanges) (v w : Json) : Prop :=
  (v.distinct → w.distinct) ∧ v.Reshaped N w

theorem Json.MayBecome.refl (N : NameChanges) (v : Json) : v.MayBecome N v := ⟨id, .refl N v⟩

theorem Json.MayBecome.trans {N : NameChanges} (hN : N.Directed) {u v w : Json}
    (h : u.MayBecome N v) (h' : v.MayBecome N w) : u.MayBecome N w :=
  ⟨h'.1 ∘ h.1, h.2.trans hN.toOrderly h'.2⟩

namespace Judged

variable {N : NameChanges} {T : Path → String → Prop} {path : Path}
  {f g : Json → List Violation} {u v w w' : Json} {seg : Segment} {x : Violation}

theorem widen (hN : N.Directed) (h : Judged N T path f v w) (huv : u.Reshaped (N.under path) v)
    (hvw : v.Reshaped (N.under path) w) (hv : v.distinct) : Judged N T path f u w :=
  fun y hy hwy x hx => (h y hy hwy x hx).widen hN huv
    (hvw.trans (hN.under path).toOrderly hwy) hv hy

theorem later (hN : N.Directed) (h : Judged N T path f v w)
    (hww : w.Reshaped (N.under path) w') : Judged N T path f v w' :=
  fun y hy hwy => h y hy (hww.trans (hN.under path).toOrderly hwy)

theorem flatMap {α : Type} {as : List α} {f : α → Json → List Violation}
    (h : ∀ a ∈ as, Judged N T path (f a) v w) :
    Judged N T path (fun u => as.flatMap fun a => f a u) v w := by
  intro u hu hwu x hx
  obtain ⟨a, ha, hx⟩ := List.mem_flatMap.1 hx
  exact h a ha u hu hwu x hx

theorem congr (h : Judged N T path f v w) (hfg : ∀ u, w.Reshaped (N.under path) u → g u = f u) :
    Judged N T path g v w := by
  intro u hu hwu x hx
  rw [hfg u hwu] at hx
  exact h u hu hwu x hx

theorem nothing (h : ∀ u, w.Reshaped (N.under path) u → f u = []) : Judged N T path f v w := by
  intro u _ hwu x hx
  rw [h u hwu] at hx
  cases hx

/-- Reports of the value itself, of which there are none yet. -/
theorem of_path (hf : ∀ u, ∀ x ∈ f u, x.path = path) (h : f v = []) : Judged N T path f v w := by
  intro u _ _ x hx
  refine .value (hf u x hx) ?_
  rintro rfl
  rw [h] at hx
  cases hx

/-- Reports of a part that has been judged, or that was not there. -/
theorem part (hN : N.Directed) (hvw : v.Reshaped (N.under path) w)
    (h : ∀ y z, v.child? seg = some y → w.child? seg = some z →
      Judged N T (path ++ [seg]) f y z)
    (hu : u.distinct) (hwu : w.Reshaped (N.under path) u) {y : Json} (hy : u.child? seg = some y)
    (hx : x ∈ f y) (hpath : path ++ [seg] <+: x.path) : x.AlteredFrom T path v u := by
  cases hv : v.child? seg with
  | none => exact .part hpath (by simp [hv, hy])
  | some y' =>
    have hsome := hvw.isSome_child? (hN.under path) hwu seg (by simp [hv, hy])
    rw [hy] at hsome
    obtain ⟨z, hz⟩ := Option.isSome_iff_exists.1 hsome
    have hzy := hwu.child? hz hy
    rw [NameChanges.below_under] at hzy
    exact .below hv hy (h y' z hv hz y ((Json.child?_inside hy).distinct hu) hzy x hx)

end Judged

/-- A walk each step of which has judged the reports for its item. -/
theorem Leaves.judging {α β σ : Type} {N : NameChanges} {T : Path → String → Prop}
    (hN : N.Directed) (path : Path) (view : β → Json) {f : β → α → StateT σ Option β}
    (reports : α → Json → List Violation) {xs : List α} {b : β} (hd : (view b).distinct)
    (step : ∀ x ∈ xs, ∀ c, (view c).distinct → Leaves (f c x) fun c' =>
      (view c).MayBecome (N.under path) (view c') ∧
        Judged N T path (reports x) (view c) (view c')) :
    Leaves (xs.foldlM f b) fun c => (view b).MayBecome (N.under path) (view c) ∧
      Judged N T path (fun u => xs.flatMap fun x => reports x u) (view b) (view c) := by
  have hfold := Leaves.foldlM_all (f := f) (b := b)
    (R := fun b c => (view b).MayBecome (N.under path) (view c))
    (D := fun x c => Judged N T path (reports x) (view b) (view c))
    (fun b => .refl _ (view b)) (fun h h' => h.trans (hN.under path) h')
    (fun x c c' hcc h => h.later hN hcc.2) fun x hx c hc => by
      have hdc := hc.1 hd
      exact (step x hx c hdc).imp fun c' hc' => ⟨hc'.1, hc'.2.widen hN hc.2 hc'.1.2 hdc⟩
  exact hfold.imp fun c hc => ⟨hc.1, .flatMap hc.2⟩

/-! ## Reports of checks -/

/-- The checks whose reports are all of the value itself. -/
def Check.flat : Check → Bool
  | rule .. | closed .. | negation .. | anyOf .. | oneOf .. | reference .. => true
  | _ => false

/-- The checks that do no more than go to parts. -/
def Check.walks : Check → Bool
  | additional .. | items .. | patternProperties .. | additionalItems .. => true
  | _ => false

/-- What a node reports of the part at a segment, which may be absent. -/
def Node.partReports (s : Scope) (k : Node) (seg : Segment) (p : Site) (v : Json) :
    List Violation :=
  match v.child? seg with
  | some x => k.reports s x (p.down seg)
  | none => k.heading.absentReports (p.down seg)

section Reports

variable {s : Scope} {h : Heading} {c : Check} {k : Node} {v : Json} {p : Site} {x : Violation}

theorem Heading.path_of_demand {holds : Bool} {kind : Violation.Kind} {place : Path}
    (hx : x ∈ h.demandReports holds kind v place p) : x.path = p.path := by
  rw [demandReports] at hx
  split at hx
  · cases hx
  · rw [List.mem_singleton.1 hx]
    rfl

theorem Heading.path_of_absent {seg : Segment} (hx : x ∈ h.absentReports (p.down seg)) :
    x.path = p.path ++ [seg] := by
  rw [absentReports] at hx
  split at hx
  · rw [List.mem_singleton.1 hx]
    rfl
  · cases hx

theorem Check.path_of_flat (hflat : c.flat = true) (hx : x ∈ c.reports s h v p) :
    x.path = p.path := by
  cases c with
  | rule r place =>
    rw [reports_direct s v p h rfl] at hx
    obtain ⟨a, ha, hx⟩ := List.mem_flatMap.1 hx
    obtain ⟨kind, -, rfl⟩ := List.mem_map.1 ha
    rw [List.mem_singleton.1 hx]
    rfl
  | closed declared place =>
    rw [reports_direct s v p h rfl] at hx
    obtain ⟨a, ha, hx⟩ := List.mem_flatMap.1 hx
    cases v with
    | object ms =>
      obtain ⟨e, -, rfl⟩ := List.mem_map.1 ha
      rw [List.mem_singleton.1 hx]
      rfl
    | _ => cases ha
  | negation n place => exact Heading.path_of_demand (reports_negation s n v p h place ▸ hx)
  | anyOf ns place => exact Heading.path_of_demand (reports_anyOf s v p h ns place ▸ hx)
  | oneOf ns place => exact Heading.path_of_demand (reports_oneOf s v p h ns place ▸ hx)
  | reference text place =>
    exact Heading.path_of_demand (reports_reference s v p h text place ▸ hx)
  | _ => cases hflat

theorem Check.exists_comes_of_walks (hwalks : c.walks = true) (hx : x ∈ c.reports s h v p) :
    ∃ k seg y, c.Comes v k y (some seg) ∧ x ∈ k.reports s y (p.down seg) := by
  have hdirect : c.direct = true := by cases c <;> first | rfl | cases hwalks
  rw [reports_direct s v p h hdirect] at hx
  obtain ⟨a, ha, hx⟩ := List.mem_flatMap.1 hx
  have hvisit : ∃ k seg y, a = .visit k y (some seg) := by
    cases c with
    | additional declared k =>
      cases v with
      | object ms =>
        obtain ⟨e, -, rfl⟩ := List.mem_map.1 ha
        exact ⟨_, _, _, rfl⟩
      | _ => cases ha
    | items k =>
      cases v with
      | array xs =>
        obtain ⟨y, -, rfl⟩ := List.mem_map.1 ha
        exact ⟨_, _, _, rfl⟩
      | _ => cases ha
    | patternProperties entries =>
      cases v with
      | object ms =>
        obtain ⟨e, -, ha⟩ := List.mem_flatMap.1 ha
        obtain ⟨f, -, rfl⟩ := List.mem_map.1 ha
        exact ⟨_, _, _, rfl⟩
      | _ => cases ha
    | additionalItems limit k =>
      cases v with
      | array xs =>
        obtain ⟨y, -, rfl⟩ := List.mem_map.1 ha
        exact ⟨_, _, _, rfl⟩
      | _ => cases ha
    | _ => cases hwalks
  obtain ⟨k, seg, y, rfl⟩ := hvisit
  exact ⟨k, seg, y, comes_of_visit ha, hx⟩

theorem Node.below_of_reports (hx : x ∈ k.reports s v p) : p.path <+: x.path :=
  (Node.exists_finds hx).within.below

theorem Check.reports_allOf (ns : List Node) :
    (allOf ns).reports s h v p = ns.flatMap fun k => k.reports s v p := by
  rw [reports_direct s v p h rfl, actions, List.flatMap_map]
  rfl

theorem Check.reports_dependencies (entries : List (String × Dependency)) :
    (dependencies entries).reports s h v p =
      entries.flatMap fun e => (dependencies [e]).reports s h v p := by
  have hone : ∀ e, (dependencies [e]).reports s h v p =
      ((dependencies [e]).actions v p.path).flatMap (Action.reports s h p) :=
    fun e => reports_direct s v p h rfl
  rw [reports_direct s v p h rfl]
  simp only [hone]
  cases v <;> simp [actions, List.flatMap_assoc]

theorem Check.reports_tuple (ns : List Node) (xs : List Json) :
    (tuple ns).reports s h (.array xs) p =
      ns.zipIdx.flatMap fun k => k.1.partReports s (.index k.2) p (.array xs) := by
  rw [reports_direct s _ p h rfl, actions, List.flatMap_map]
  congr 1
  funext k
  simp only [Node.partReports, Json.child?]
  cases xs[k.2]? <;> rfl

theorem Check.reports_properties (entries : List (String × Node)) (skipNull : Bool)
    (ms : Members) :
    (properties entries skipNull).reports s h (.object ms) p =
      entries.flatMap fun e => e.2.partReports s (.name e.1) p (.object ms) := by
  rw [reports_direct s _ p h rfl, actions, List.flatMap_map]
  congr 1
  funext e
  simp only [Node.partReports, Json.child?]
  cases ms.lookup e.1 <;> rfl

theorem Check.reports_names {name : String} {names : List String} {place : Path} :
    (dependencies [(name, .names names place)]).reports s h v p =
      bif (v.get? name).isSome then
        h.demandReports (names.all fun name => (v.get? name).isSome) .dependencies v place p
      else [] := by
  rw [reports_direct s v p h rfl, Heading.demandReports]
  cases v with
  | object ms =>
    simp only [actions, List.flatMap_cons, List.flatMap_nil, List.append_nil]
    have hget : (Json.object ms).get? name = ms.lookup name := rfl
    rw [hget, Members.has]
    cases (ms.lookup name).isSome with
    | false => rfl
    | true => cases names.all fun name => ((Json.object ms).get? name).isSome <;> rfl
  | _ => rfl

theorem Check.reports_dependent {name : String} :
    (dependencies [(name, .schema k)]).reports s h v p =
      bif (v.get? name).isSome then k.reports s v p else [] := by
  rw [reports_direct s v p h rfl]
  cases v with
  | object ms =>
    simp only [actions, List.flatMap_cons, List.flatMap_nil, List.append_nil]
    have hget : (Json.object ms).get? name = ms.lookup name := rfl
    rw [hget, Members.has]
    cases (ms.lookup name).isSome with
    | false => rfl
    | true => exact List.append_nil _
  | _ => rfl

end Reports

/-! ## Checks -/

/-- The nodes that a check sends to the part at a segment have judged it. -/
def Check.PartJudged (s : Scope) (N : NameChanges) (T : Path → String → Prop) (c : Check) (p : Site)
    (seg : Segment) (x y : Json) : Prop :=
  ∀ k, c.Sends k (some seg) →
    Judged N T (p.path ++ [seg]) (fun u => k.reports s u (p.down seg)) x y

/-- The steps of a run at the parts of a check have judged what they go to. -/
structure Check.Judges (s : Scope) (m : Changes) (N : NameChanges) (T : Path → String → Prop)
    (W : Changer (StateT Tally Option)) (c : Check) (h : Heading) (p : Site) : Prop where
  admits : c.Admits m (Json.MayBecome (N.under p.path)) fun seg =>
    Json.MayBecome (N.under (p.path ++ [seg]))
  becomes : ∀ v, Leaves (W.check m c v) (v.MayBecome (N.under p.path))
  fills : ∀ k seg x, c.Fills k seg → k.heading.filling? m = some x → x.distinct
  depends : ∀ entries name k, c = .dependencies entries → (name, .schema k) ∈ entries →
    T p.path name
  here : ∀ k, c.Sends k none → ∀ v, v.distinct → Leaves (W.visit k v none) fun w =>
    v.MayBecome (N.under p.path) w ∧ Judged N T p.path (fun u => k.reports s u p) v w
  below : ∀ k seg, c.Sends k (some seg) → ∀ x, x.distinct → Leaves (W.visit k x (some seg)) fun y =>
    x.MayBecome (N.under (p.path ++ [seg])) y ∧
      Judged N T (p.path ++ [seg]) (fun u => k.reports s u (p.down seg)) x y
  reference : ∀ text place, c = .reference text place → ∀ v, v.distinct →
    Leaves (W.reference text place v) fun w => Judged N T p.path (fun u => c.reports s h u p) v w
  schemaFormat : ∀ name, c = .schemaFormat name → ∀ v, v.distinct →
    Leaves (W.schemaFormat name v) fun w => Judged N T p.path (fun u => c.reports s h u p) v w
  look : ∀ v, Leaves (W.look c v) fun _ => c.reports s h v p = []
  names : ∀ names place v, Leaves (W.names names place v) fun _ =>
    (names.all fun name => (v.get? name).isSome) = true
  absent : ∀ k seg, Leaves (W.absent k seg) fun _ => k.absentReports (p.down seg) = []

section

variable {s : Scope} {m : Changes} {N : NameChanges} {T : Path → String → Prop}
  {W : Changer (StateT Tally Option)} {c : Check} {h : Heading} {p : Site} {k : Node} {v w : Json}
  {seg : Segment}

theorem Json.child?_name (v : Json) (name : String) : v.child? (.name name) = v.get? name := by
  cases v <;> rfl

/-- A node has judged a part that is there. -/
theorem Judged.visited (hN : N.Directed) (hvw : v.Reshaped (N.under p.path) w) {x y : Json}
    (hx : v.child? seg = some x) (hy : w.child? seg = some y)
    (hj : Judged N T (p.path ++ [seg]) (fun u => k.reports s u (p.down seg)) x y) :
    Judged N T p.path (k.partReports s seg p) v w := by
  intro u hu hwu z hz
  rw [Node.partReports] at hz
  split at hz
  · next y' hy' =>
    refine part (f := fun u => k.reports s u (p.down seg)) hN hvw (fun x' y' hx' hy' => ?_) hu hwu
      hy' hz (Node.below_of_reports hz)
    rw [Option.some.inj (hx'.symm.trans hx), Option.some.inj (hy'.symm.trans hy)]
    exact hj
  · next hnone =>
    have hpath := Heading.path_of_absent hz
    exact .part (by rw [hpath]) (by simp [hx, hnone])

/-- A part that is not there is judged if its node does not miss it. -/
theorem Judged.absent (hx : v.child? seg = none)
    (habsent : k.heading.absentReports (p.down seg) = []) :
    Judged N T p.path (k.partReports s seg p) v w := by
  intro u hu hwu z hz
  rw [Node.partReports] at hz
  split at hz
  · next y hy => exact .part (Node.below_of_reports hz) (by simp [hx, hy])
  · rw [habsent] at hz
    cases hz

theorem Heading.absentReports_of_filling? {x : Json} (hx : h.filling? m = some x) :
    h.absentReports p = [] := by
  rw [absentReports, default_of_filling? hx]
  simp

/-! ### Parts of objects and of arrays -/

theorem Changer.members_parts {f : String → Json → StateT Tally Option Json}
    {Q : String → Json → Json → Prop} (hd : v.distinct)
    (hf : ∀ name x, x.distinct → Leaves (f name x) (Q name x)) :
    Leaves (W.members f v) fun w => ∀ name x y, v.child? (.name name) = some x →
      w.child? (.name name) = some y → Q name x y := by
  cases v with
  | object ms =>
    refine Leaves.after fun _ => ?_
    have hms : Leaves (ms.mapM fun e => do return (e.1, ← f e.1 e.2))
        (List.Forall₂ (fun e e' => e.1 = e'.1 ∧ Q e.1 e.2 e'.2) ms) :=
      Leaves.mapM fun e he => (hf e.1 e.2 ((Json.distinct_object.1 hd).2 e he)).map
        fun w hw => ⟨rfl, hw⟩
    exact hms.map fun ns hns name x y hx hy => lookup_of_forall₂ hns hx hy
  | _ =>
    refine Leaves.pure fun name x y hx => ?_
    cases hx

theorem Changer.items_parts {f : Nat → Json → StateT Tally Option Json}
    {Q : Nat → Json → Json → Prop} (hd : v.distinct)
    (hf : ∀ i x, x.distinct → Leaves (f i x) (Q i x)) :
    Leaves (W.items f v) fun w => ∀ i x y, v.child? (.index i) = some x →
      w.child? (.index i) = some y → Q i x y := by
  cases v with
  | array xs =>
    refine Leaves.after fun _ => ?_
    have hxs : Leaves (xs.zipIdx.mapM fun x => f x.2 x.1)
        (List.Forall₂ (fun x y => Q x.2 x.1 y) xs.zipIdx) :=
      Leaves.mapM fun x hx => hf x.2 x.1
        (Json.distinct_array.1 hd x.1 (List.fst_mem_of_mem_zipIdx hx))
    refine hxs.map fun ys hys i x y hx hy => ?_
    obtain ⟨hi, rfl⟩ := List.getElem?_eq_some_iff.1 hx
    obtain ⟨hi', rfl⟩ := List.getElem?_eq_some_iff.1 hy
    simpa using hys.get (by simpa using hi) hi'
  | _ =>
    refine Leaves.pure fun i x y hx => ?_
    cases hx

/-! ### Kinds of checks -/

namespace Check.Judges

variable (hN : N.Directed)

theorem looking (hj : c.Judges s m N T W h p) (hflat : c.flat = true) (v : Json) :
    Leaves (W.looking c v) fun w => Judged N T p.path (fun u => c.reports s h u p) v w :=
  (hj.look v).bind fun _ hnone => Leaves.pure (.of_path (fun _ _ hx => path_of_flat hflat hx) hnone)

include hN

theorem dependencies {entries : List (String × Dependency)}
    (hj : (Check.dependencies entries).Judges s m N T W h p) (hd : v.distinct) :
    Leaves (W.check m (.dependencies entries) v) fun w =>
      Judged N T p.path (fun u => (Check.dependencies entries).reports s h u p) v w := by
  have hfold : Leaves (W.check m (.dependencies entries) v) fun w =>
      v.MayBecome (N.under p.path) w ∧ Judged N T p.path
        (fun u => entries.flatMap fun e => (Check.dependencies [e]).reports s h u p) v w := by
    refine Leaves.judging hN _ (fun v => v) _ hd fun e he c hc => ?_
    obtain ⟨name, d⟩ := e
    cases hget : (c.get? name).isSome with
    | false =>
      have hnone : c.get? name = none := by simpa using hget
      refine Leaves.pure ⟨.refl _ c, fun u hu _ x hx => ?_⟩
      beta_reduce at hx
      cases hu' : (u.get? name).isSome with
      | false =>
        cases d with
        | names => simp [reports_names, hu'] at hx
        | schema => simp [reports_dependent, hu'] at hx
      | true =>
        cases d with
        | names =>
          rw [reports_names, hu'] at hx
          refine .value (Heading.path_of_demand hx) ?_
          rintro rfl
          simp [hget] at hu'
        | schema k =>
          rw [reports_dependent, hu'] at hx
          have hdepends := hj.depends entries name k rfl he
          exact .member (Node.below_of_reports hx) hdepends (by rwa [Json.child?_name])
            (by rwa [Json.child?_name])
    | true =>
      cases d with
      | names names place =>
        refine (hj.names names place c).bind fun _ hall => Leaves.pure ⟨.refl _ c, ?_⟩
        refine .of_path (fun u x hx => ?_) ?_
        · cases hu : (u.get? name).isSome with
          | false => simp [reports_names, hu] at hx
          | true =>
            rw [reports_names, hu] at hx
            exact Heading.path_of_demand hx
        · rw [reports_names, hall]
          cases (c.get? name).isSome <;> rfl
      | schema k =>
        refine (hj.here k (.dependency he) c hc).imp fun w hw => ⟨hw.1, fun u hu hwu x hx => ?_⟩
        beta_reduce at hx
        cases hu' : (u.get? name).isSome with
        | false => simp [reports_dependent, hu'] at hx
        | true =>
          rw [reports_dependent, hu'] at hx
          exact hw.2 u hu hwu x hx
  exact hfold.imp fun w hw => hw.2.congr fun u _ => reports_dependencies entries

theorem closed {declared : Declared} {place : Path}
    (hj : (Check.closed declared place).Judges s m N T W h p) (v : Json) :
    Leaves (W.check m (.closed declared place) v) fun w =>
      Judged N T p.path (fun u => (Check.closed declared place).reports s h u p) v w := by
  cases v with
  | object ms =>
    cases hf : m.filter with
    | true =>
      simp only [Changer.check, hf]
      refine Leaves.pure fun u hu hwu x hx => .value (path_of_flat rfl hx) ?_
      rintro rfl
      have hstrip := (hj.admits.strip declared place rfl hf ms).2
      beta_reduce at hx
      rw [reports_direct s _ p h rfl] at hx
      obtain ⟨a, ha, -⟩ := List.mem_flatMap.1 hx
      obtain ⟨e, he, -⟩ := List.mem_map.1 ha
      obtain ⟨hmem, hrejected⟩ := List.mem_filter.1 he
      have hthere : (ms.lookup e.1).isSome :=
        (Members.lookup_isSome_iff ms e.1).2 (List.mem_map_of_mem hmem)
      have hkept := hstrip.isSome_child? (hN.under p.path) hwu (.name e.1) rfl
      simp only [Json.child?, Members.lookup_filter ms e.1 declared.has, hthere] at hkept
      simp only [Bool.not_eq_true'] at hrejected
      simp [hrejected] at hkept
    | false =>
      simp only [Changer.check, hf]
      exact hj.looking rfl _
  | _ => exact hj.looking rfl _

theorem of_parts (hj : c.Judges s m N T W h p) (hwalks : c.walks = true)
    (hparts : Leaves (W.check m c v) fun w => ∀ seg x y, v.child? seg = some x →
      w.child? seg = some y → c.PartJudged s N T p seg x y) :
    Leaves (W.check m c v) fun w => Judged N T p.path (fun u => c.reports s h u p) v w := by
  intro t w t' ht u hu hwu x hx
  obtain ⟨k, seg, y, hcomes, hx⟩ := exists_comes_of_walks hwalks hx
  exact Judged.part (f := fun u => k.reports s u (p.down seg)) hN (hj.becomes v t w t' ht).2
    (fun y z hy hz => hparts t w t' ht seg y z hy hz k hcomes.sends) hu hwu (hcomes.child? hu) hx
    (Node.below_of_reports hx)

theorem of_members (hj : c.Judges s m N T W h p) (hwalks : c.walks = true)
    (hsends : ∀ k i, ¬c.Sends k (some (.index i)))
    (hparts : Leaves (W.check m c v) fun w => ∀ name x y, v.child? (.name name) = some x →
      w.child? (.name name) = some y → c.PartJudged s N T p (.name name) x y) :
    Leaves (W.check m c v) fun w => Judged N T p.path (fun u => c.reports s h u p) v w := by
  refine hj.of_parts hN hwalks (hparts.imp fun w hw seg x y hx hy => ?_)
  cases seg with
  | name name => exact hw name x y hx hy
  | index i => exact fun k hk => absurd hk (hsends k i)

theorem of_items (hj : c.Judges s m N T W h p) (hwalks : c.walks = true)
    (hsends : ∀ k name, ¬c.Sends k (some (.name name)))
    (hparts : Leaves (W.check m c v) fun w => ∀ i x y, v.child? (.index i) = some x →
      w.child? (.index i) = some y → c.PartJudged s N T p (.index i) x y) :
    Leaves (W.check m c v) fun w => Judged N T p.path (fun u => c.reports s h u p) v w := by
  refine hj.of_parts hN hwalks (hparts.imp fun w hw seg x y hx hy => ?_)
  cases seg with
  | index i => exact hw i x y hx hy
  | name name => exact fun k hk => absurd hk (hsends k name)

theorem additional {declared : Declared} {k : Node}
    (hj : (Check.additional declared k).Judges s m N T W h p) (hd : v.distinct) :
    Leaves (W.check m (.additional declared k) v) fun w =>
      Judged N T p.path (fun u => (Check.additional declared k).reports s h u p) v w := by
  refine hj.of_members hN rfl (fun _ _ hk => by cases hk) ?_
  rw [Changer.check]
  refine Changer.members_parts hd fun name x hx => ?_
  cases hdeclared : declared.has name with
  | true =>
    refine Leaves.pure fun j hk => ?_
    cases hk with
    | additional hnot => rw [hdeclared] at hnot; cases hnot
  | false =>
    refine (hj.below k _ (.additional hdeclared) x hx).imp fun y hy j hk => ?_
    cases hk with
    | additional => exact hy.2

theorem items {k : Node} (hj : (Check.items k).Judges s m N T W h p) (hd : v.distinct) :
    Leaves (W.check m (.items k) v) fun w =>
      Judged N T p.path (fun u => (Check.items k).reports s h u p) v w := by
  refine hj.of_items hN rfl (fun _ _ hk => by cases hk) ?_
  rw [Changer.check]
  refine Changer.items_parts hd fun i x hx => ?_
  refine (hj.below k _ .item x hx).imp fun y hy j hk => ?_
  cases hk with
  | item => exact hy.2

theorem additionalItems {limit : Nat} {k : Node}
    (hj : (Check.additionalItems limit k).Judges s m N T W h p) (hd : v.distinct) :
    Leaves (W.check m (.additionalItems limit k) v) fun w =>
      Judged N T p.path (fun u => (Check.additionalItems limit k).reports s h u p) v w := by
  refine hj.of_items hN rfl (fun _ _ hk => by cases hk) ?_
  rw [Changer.check]
  refine Changer.items_parts hd fun i x hx => ?_
  split
  · next hi =>
    refine Leaves.pure fun j hk => ?_
    cases hk with
    | itemPast hle => exact absurd hi (Nat.not_lt.2 hle)
  · next hi =>
    refine (hj.below k _ (.itemPast (Nat.not_lt.1 hi)) x hx).imp fun y hy j hk => ?_
    cases hk with
    | itemPast => exact hy.2

theorem patternProperties {entries : List (Pattern × Node)}
    (hj : (Check.patternProperties entries).Judges s m N T W h p) (hd : v.distinct) :
    Leaves (W.check m (.patternProperties entries) v) fun w =>
      Judged N T p.path (fun u => (Check.patternProperties entries).reports s h u p) v w := by
  refine hj.of_members hN rfl (fun _ _ hk => by cases hk) ?_
  rw [Changer.check]
  refine Changer.members_parts hd fun name x hx => ?_
  have hfold := Leaves.judging (T := T) hN (p.path ++ [.name name]) (fun x => x)
    (f := fun x e => bif e.1.accepts name then W.visit e.2 x (some (.name name)) else pure x)
    (fun e u => bif e.1.accepts name then e.2.reports s u (p.down (.name name)) else [])
    hx fun (e : Pattern × Node) (he : e ∈ entries) c hc => by
      cases ha : e.1.accepts name with
      | false => exact Leaves.pure ⟨.refl _ c, fun _ _ _ _ hx => by cases hx⟩
      | true => exact hj.below e.2 _ (.pattern he ha) c hc
  refine hfold.imp fun y hy j hk u hu hyu z hz => ?_
  cases hk with
  | @pattern _ e _ he ha =>
    exact hy.2 u hu hyu z (List.mem_flatMap.2 ⟨e, he, by rw [ha]; exact hz⟩)

theorem allOf {ns : List Node} (hj : (Check.allOf ns).Judges s m N T W h p) (hd : v.distinct) :
    Leaves (W.check m (.allOf ns) v) fun w =>
      Judged N T p.path (fun u => (Check.allOf ns).reports s h u p) v w := by
  have hfold : Leaves (W.check m (.allOf ns) v) fun w => v.MayBecome (N.under p.path) w ∧
      Judged N T p.path (fun u => ns.flatMap fun k => k.reports s u p) v w :=
    Leaves.judging hN _ (fun v => v) _ hd fun k hk c hc => hj.here k (.member hk) c hc
  exact hfold.imp fun w hw => hw.2.congr fun u _ => reports_allOf ns

theorem tuple {ns : List Node} (hj : (Check.tuple ns).Judges s m N T W h p) (hd : v.distinct) :
    Leaves (W.check m (.tuple ns) v) fun w =>
      Judged N T p.path (fun u => (Check.tuple ns).reports s h u p) v w := by
  cases v with
  | array xs =>
    have hfold := Leaves.judging (T := T) hN p.path Json.array
      (f := fun xs k => W.item m xs k.1 k.2) (fun k u => k.1.partReports s (.index k.2) p u)
      hd fun (k : Node × Nat) (hk : k ∈ ns.zipIdx) xs hxs => by
        have hfills : (Check.tuple ns).Fills k.1 (.index k.2) := .item hk
        rw [Changer.item]
        cases hx : xs[k.2]? with
        | some x =>
          have hpart := Json.distinct_array.1 hxs x (List.mem_of_getElem? hx)
          refine (hj.below k.1 _ hfills.sends x hpart).map fun y hy => ?_
          have hset := hj.admits.set hx hy.1
          obtain ⟨hi, -⟩ := List.getElem?_eq_some_iff.1 hx
          exact ⟨hset, .visited hN hset.2 hx (List.getElem?_set_self hi) hy.2⟩
        | none =>
          cases hfill : (if xs.length = k.2 then k.1.heading.filling? m else none) with
          | some x =>
            split at hfill
            · next hlength =>
              have hx' := hj.fills _ _ x hfills hfill
              refine (hj.below k.1 _ hfills.sends x hx').map fun y hy => ?_
              rw [← hlength] at hfills hy
              exact ⟨hj.admits.append hfills hfill hy.1,
                .absent hx (Heading.absentReports_of_filling? hfill)⟩
            · cases hfill
          | none =>
            exact (hj.absent _ _).bind fun _ habsent =>
              Leaves.pure ⟨.refl _ _, .absent hx habsent⟩
    refine Leaves.after fun _ => hfold.map fun ys hys => hys.2.congr fun u hu => ?_
    obtain ⟨zs, rfl⟩ := hu.exists_array
    exact reports_tuple ns zs
  | _ =>
    refine Leaves.pure (.nothing fun u hu => ?_)
    cases hu <;> exact reports_direct s _ p h rfl

theorem properties {entries : List (String × Node)} {skipNull : Bool}
    (hj : (Check.properties entries skipNull).Judges s m N T W h p) (hd : v.distinct) :
    Leaves (W.check m (.properties entries skipNull) v) fun w =>
      Judged N T p.path (fun u => (Check.properties entries skipNull).reports s h u p) v w := by
  cases v with
  | object ms =>
    have hfold := Leaves.judging (T := T) hN p.path Json.object
      (f := fun ms e => W.member m ms e.1 e.2) (fun e u => e.2.partReports s (.name e.1) p u)
      hd fun (e : String × Node) (he : e ∈ entries) ms hms => by
        have hfills : (Check.properties entries skipNull).Fills e.2 (.name e.1) := .member he
        rw [Changer.member]
        cases hx : ms.lookup e.1 with
        | some x =>
          have hpart := (Json.distinct_object.1 hms).2 _ (mem_of_lookup hx)
          refine (hj.below e.2 _ hfills.sends x hpart).map fun y hy => ?_
          have hreplace := hj.admits.replace hx hy.1
          have hy' : (Members.replace ms e.1 y).lookup e.1 = some y := by
            rw [Members.lookup_replace, if_pos rfl, hx]
            rfl
          exact ⟨hreplace, .visited hN hreplace.2 hx hy' hy.2⟩
        | none =>
          cases hfill : e.2.heading.filling? m with
          | some x =>
            have hx' := hj.fills _ _ x hfills hfill
            refine (hj.below e.2 _ hfills.sends x hx').map fun y hy => ?_
            exact ⟨hj.admits.add hfills hx hfill hy.1,
              .absent hx (Heading.absentReports_of_filling? hfill)⟩
          | none =>
            exact (hj.absent _ _).bind fun _ habsent =>
              Leaves.pure ⟨.refl _ _, .absent hx habsent⟩
    refine Leaves.after fun _ => hfold.map fun ns hns => hns.2.congr fun u hu => ?_
    obtain ⟨ls, rfl⟩ := hu.exists_object
    exact reports_properties entries skipNull ls
  | array xs =>
    refine (hj.look _).bind fun _ hnone => Leaves.pure (.nothing fun u hu => ?_)
    obtain ⟨ys, rfl⟩ := hu.exists_array
    rw [reports_direct s _ p h rfl] at hnone ⊢
    exact hnone
  | _ =>
    refine (hj.look _).bind fun _ hnone => Leaves.pure (.nothing fun u hu => ?_)
    cases hu
    exact hnone

end Check.Judges

/-- **A check that reports nothing has judged what it would report**, if its steps at its parts have
judged what they go to. -/
theorem Changer.check_judges (hN : N.Directed) (hj : c.Judges s m N T W h p) (hd : v.distinct) :
    Leaves (W.check m c v) fun w => Judged N T p.path (fun u => c.reports s h u p) v w := by
  cases c with
  | reference text place => exact hj.reference text place rfl v hd
  | schemaFormat name => exact hj.schemaFormat name rfl v hd
  | dependencies entries => exact hj.dependencies hN hd
  | closed declared place => exact hj.closed hN v
  | additional declared k => exact hj.additional hN hd
  | items k => exact hj.items hN hd
  | patternProperties entries => exact hj.patternProperties hN hd
  | allOf ns => exact hj.allOf hN hd
  | tuple ns => exact hj.tuple hN hd
  | properties entries skipNull => exact hj.properties hN hd
  | additionalItems limit k => exact hj.additionalItems hN hd
  | rule | negation | anyOf | oneOf => exact hj.looking rfl v

end

end JsonSchema
