import JsonSchema.Proofs.Reports

/-!
# What a node finds by itself

Every violation that a run reports is found by one node of the run, with its heading or with one of
its checks, on the value that the run has come to there. The nodes under `not`, `anyOf`, `oneOf`
and the targets of references are asked for verdicts, and what they find is dropped: a run comes to
the other nested nodes, and to formats that are schemas.

* `Check.Finds`, `Node.Finds`: the violations that a check and a node find by themselves;
* `Scope.Comes`: the nodes that a run comes to, with their values and the paths to these;
* `Node.exists_finds`: every report of a run is found by a node that it comes to.
-/

namespace JsonSchema

/-! ## The findings of one node -/

def Rule.Covers : Rule → Violation.Kind → Prop
  | noItemsPast _, kind => kind = .additionalItems
  | format name _, kind => kind = .format name
  | uniqueItems, kind => kind = .uniqueItems
  | enum _, kind => kind = .enum
  | pattern _, kind => kind = .pattern
  | multipleOf _, kind => kind = .multipleOf
  | maxProperties _, kind => kind = .maxProperties
  | minProperties _, kind => kind = .minProperties
  | maxItems _, kind => kind = .maxItems
  | minItems _, kind => kind = .minItems
  | maxLength _, kind => kind = .maxLength
  | minLength _, kind => kind = .minLength
  | minimum _ _, kind => kind = .minimum
  | maximum _ _, kind => kind = .maximum
  | custom check, kind => ∃ v text, check v = some text ∧ kind = .custom text

theorem Rule.covers_of_fault? {r : Rule} {v : Json} {kind : Violation.Kind}
    (h : r.fault? v = some kind) : r.Covers kind := by
  have hdemand : ∀ {b : Bool} {kind' : Violation.Kind}, demand b kind' = some kind →
      kind = kind' := by
    intro b kind' hb
    cases b
    · simpa [demand, eq_comm] using hb
    · simp [demand] at hb
  cases r with
  | custom check =>
    rw [fault?, Option.map_eq_some_iff] at h
    obtain ⟨text, htext, rfl⟩ := h
    exact ⟨v, text, htext, rfl⟩
  | format name test =>
    cases v with
    | string s => exact hdemand h
    | _ => cases h
  | enum options => exact hdemand h
  | _ => cases v <;> first | exact hdemand h | cases h

/-- A rule finds a value wrong: it asks for no member, and it rejects none. -/
theorem Rule.Covers.ne {r : Rule} {kind : Violation.Kind} (h : r.Covers kind) :
    kind ≠ .required ∧ kind ≠ .additionalProperties := by
  cases r with
  | custom check =>
    obtain ⟨v, text, -, rfl⟩ := h
    simp
  | _ =>
    cases h
    simp

def Check.demand? : Check → Option (Violation.Kind × Path)
  | reference _ place => some (.reference, place)
  | negation _ place => some (.not, place)
  | anyOf _ place => some (.anyOf, place)
  | oneOf _ place => some (.oneOf, place)
  | _ => none

/-- The violations that a check of the node with the heading `h` finds on the value at a path. -/
inductive Check.Finds (h : Heading) (v : Json) (path : Path) : Check → Violation → Prop
  | rule {r : Rule} {place : Path} {kind : Violation.Kind} : r.fault? v = some kind →
      Finds h v path (.rule r place) (violation h path kind (some v) place)
  | dependency {entries : List (String × Dependency)} {name : String} {names : List String}
      {place : Path} : (name, .names names place) ∈ entries →
      Finds h v path (.dependencies entries) (violation h path .dependencies (some v) place)
  | closed {declared : Declared} {place : Path} {ms : Members} {e : String × Json} :
      v = .object ms → e ∈ ms →
      Finds h v path (.closed declared place) (violation h path .additionalProperties
        (some (.string (Path.field (path ++ [.name e.1])))) place)
  | verdict {c : Check} {kind : Violation.Kind} {place : Path} : c.demand? = some (kind, place) →
      Finds h v path c (violation h path kind (some v) place)
  /-- A part that does not exist is required by its own node, the heading of which is reported. -/
  | absent {c : Check} {k : Node} {seg : Segment} : k ∈ c.nodesBelow → v.child? seg = none →
      k.heading.required = true →
      Finds h v path c (violation k.heading (path ++ [seg]) .required none
        (k.heading.place "required"))

/-- The violations that a node finds on the value at a path. -/
inductive Node.Finds (v : Json) (path : Path) (n : Node) : Violation → Prop
  | type : n.heading.acceptsType v = false →
      Finds v path n (violation n.heading path .type (some v) (n.heading.place "type"))
  | missing {name : String} : name ∈ n.heading.missing v →
      Finds v path n (violation n.heading (path ++ [.name name]) .required (some v)
        (n.heading.place "required"))
  | check {c : Check} {x : Violation} : c ∈ n.checks → c.Finds n.heading v path x →
      Finds v path n x

section Actions

variable {c : Check} {h : Heading} {v : Json} {path : Path}

/-- What a check reports by an action it finds by itself. -/
theorem Check.finds_of_report {kind : Violation.Kind} {value : Option Json} {place : Path}
    (ha : .report kind value place ∈ c.actions v path) :
    c.Finds h v path (violation h path kind value place) := by
  cases c with
  | rule r place' =>
    simp only [actions, List.mem_map, Option.mem_toList, Action.report.injEq] at ha
    obtain ⟨kind', hkind, rfl, rfl, rfl⟩ := ha
    exact .rule hkind
  | dependencies entries =>
    cases v with
    | object ms =>
      simp only [actions, List.mem_flatMap] at ha
      obtain ⟨⟨name, d⟩, he, ha⟩ := ha
      cases hm : Members.has ms name with
      | false => simp [hm] at ha
      | true =>
        cases d with
        | names names place' =>
          simp only [hm, Bool.cond_eq_ite, if_true] at ha
          split at ha
          · simp at ha
          · simp only [List.mem_singleton, Action.report.injEq] at ha
            obtain ⟨rfl, rfl, rfl⟩ := ha
            exact .dependency he
        | schema m => simp [hm] at ha
    | _ => simp [actions] at ha
  | closed declared place' =>
    cases v with
    | object ms =>
      simp only [actions, List.mem_map, List.mem_filter, Action.report.injEq] at ha
      obtain ⟨e, ⟨he, -⟩, rfl, rfl, rfl⟩ := ha
      exact .closed rfl he
    | _ => simp [actions] at ha
  | tuple ns =>
    cases v with
    | array xs =>
      simp only [actions, List.mem_map] at ha
      obtain ⟨n, -, ha⟩ := ha
      split at ha <;> cases ha
    | _ => simp [actions] at ha
  | properties entries skipNull =>
    cases v with
    | object ms =>
      simp only [actions, List.mem_map] at ha
      obtain ⟨e, -, ha⟩ := ha
      split at ha <;> cases ha
    | null => cases skipNull <;> simp [actions] at ha
    | _ => simp [actions] at ha
  | additionalItems limit k =>
    cases v with
    | array xs =>
      obtain ⟨y, -, ha⟩ := List.mem_map.mp ha
      cases ha
    | _ => simp [actions] at ha
  | _ => cases v <;> simp [actions] at ha

/-- A check looks after a part for one of its nodes, where the value has no such part. -/
theorem Check.absent_of_mem {seg : Segment} (ha : .absent h seg ∈ c.actions v path) :
    ∃ k ∈ c.nodesBelow, k.heading = h ∧ v.child? seg = none := by
  cases c with
  | dependencies entries =>
    cases v with
    | object ms =>
      simp only [actions, List.mem_flatMap] at ha
      obtain ⟨⟨name, d⟩, -, ha⟩ := ha
      cases hm : Members.has ms name with
      | false => simp [hm] at ha
      | true =>
        cases d with
        | names names place =>
          simp only [hm, Bool.cond_eq_ite, if_true] at ha
          split at ha <;> simp at ha
        | schema m => simp [hm] at ha
    | _ => simp [actions] at ha
  | tuple ns =>
    cases v with
    | array xs =>
      simp only [actions, List.mem_map] at ha
      obtain ⟨⟨k, i⟩, hk, ha⟩ := ha
      cases hx : xs[i]? with
      | some x => simp [hx] at ha
      | none =>
        simp only [hx, Action.absent.injEq] at ha
        obtain ⟨rfl, rfl⟩ := ha
        exact ⟨k, List.fst_mem_of_mem_zipIdx hk, rfl, hx⟩
    | _ => simp [actions] at ha
  | properties entries skipNull =>
    have hentries : ∀ {e : String × Node}, e ∈ entries → e.2 ∈ entries.map Prod.snd :=
      fun he => List.mem_map_of_mem he
    cases v with
    | object ms =>
      simp only [actions, List.mem_map] at ha
      obtain ⟨e, he, ha⟩ := ha
      cases hw : ms.lookup e.1 with
      | some w => simp [hw] at ha
      | none =>
        simp only [hw, Action.absent.injEq] at ha
        obtain ⟨rfl, rfl⟩ := ha
        exact ⟨e.2, hentries he, rfl, hw⟩
    | null =>
      cases skipNull with
      | true => simp [actions] at ha
      | false =>
        simp only [actions, cond_false, List.mem_map, Action.absent.injEq] at ha
        obtain ⟨e, he, rfl, rfl⟩ := ha
        exact ⟨e.2, hentries he, rfl, rfl⟩
    | _ =>
      simp only [actions, List.mem_map, Action.absent.injEq] at ha
      obtain ⟨e, he, rfl, rfl⟩ := ha
      exact ⟨e.2, hentries he, rfl, rfl⟩
  | additionalItems limit k =>
    cases v with
    | array xs =>
      obtain ⟨y, -, ha⟩ := List.mem_map.mp ha
      cases ha
    | _ => simp [actions] at ha
  | _ => cases v <;> simp [actions] at ha

end Actions

/-! ## The nodes that a run comes to -/

/-- A run of a node on a value comes to a node on the part of the value at a path. -/
inductive Scope.Comes (s : Scope) : Node → Json → Path → Node → Json → Prop
  | here {n : Node} {v : Json} : Comes s n v [] n v
  | visit {n k m : Node} {c : Check} {v w u : Json} {below : Option Segment} {q : Path} :
      c ∈ n.checks → c.Comes v k w below → Comes s k w q m u →
      Comes s n v (below.toList ++ q) m u
  | format {n k m : Node} {name : String} {v u : Json} {q : Path} :
      .schemaFormat name ∈ n.checks → s.subroutines.lookup (.format name) = some k →
      Comes s k v q m u → Comes s n v q m u

def Node.FoundFrom (s : Scope) (n : Node) (v : Json) (path : Path) (x : Violation) : Prop :=
  ∃ q m u, s.Comes n v q m u ∧ m.Finds u (path ++ q) x

section Runs

variable {s : Scope} {n k : Node} {c : Check} {v w : Json} {path : Path} {p : Site} {x : Violation}

theorem Node.Finds.foundFrom (h : n.Finds v path x) : n.FoundFrom s v path x :=
  ⟨[], n, v, .here, by rwa [List.append_nil]⟩

theorem Node.FoundFrom.visit {below : Option Segment} (hc : c ∈ n.checks)
    (hk : c.Comes v k w below) (h : k.FoundFrom s w (path ++ below.toList) x) :
    n.FoundFrom s v path x := by
  obtain ⟨q, m, u, hm, hx⟩ := h
  refine ⟨below.toList ++ q, m, u, .visit hc hk hm, ?_⟩
  rwa [← List.append_assoc]

theorem Node.FoundFrom.format {name : String} (hc : .schemaFormat name ∈ n.checks)
    (hk : s.subroutines.lookup (.format name) = some k) (h : k.FoundFrom s v path x) :
    n.FoundFrom s v path x := by
  obtain ⟨q, m, u, hm, hx⟩ := h
  exact ⟨q, m, u, .format hc hk hm, hx⟩

theorem Site.path_at_eq (p : Site) (below : Option Segment) :
    (p.at below).path = p.path ++ below.toList := by
  cases below with
  | none => simp [Site.at]
  | some seg => rfl

theorem Check.finds_of_demand {h : Heading} {kind : Violation.Kind} {place : Path} {holds : Bool}
    (hc : c.demand? = some (kind, place))
    (hx : x ∈ h.demandReports holds kind v place p) : c.Finds h v p.path x := by
  cases holds with
  | true => simp [Heading.demandReports] at hx
  | false =>
    simp only [Heading.demandReports, Bool.false_eq_true, if_false, List.mem_singleton] at hx
    rw [hx]
    exact .verdict hc

/-- What a check reports it finds itself, or a node to which it comes does. -/
theorem Check.foundFrom_of_direct (hdirect : c.direct = true) (hc : c ∈ n.checks)
    (visit : ∀ k w below, c.Comes v k w below →
      ∀ x ∈ k.reports s w (p.at below), k.FoundFrom s w (p.at below).path x)
    (hx : x ∈ c.reports s n.heading v p) : n.FoundFrom s v p.path x := by
  rw [reports_direct _ _ _ _ hdirect, List.mem_flatMap] at hx
  obtain ⟨a, ha, hx⟩ := hx
  cases a with
  | report kind value place =>
    obtain rfl := List.mem_singleton.mp hx
    exact (Node.Finds.check hc (finds_of_report ha)).foundFrom
  | absent h' seg =>
    obtain ⟨k, hk, rfl, habsent⟩ := absent_of_mem ha
    by_cases hrequired : (k.heading.required && k.heading.default.isNone) = true
    · simp only [Action.reports, Heading.absentReports, hrequired, if_true,
        List.mem_singleton] at hx
      rw [hx]
      have hreq : k.heading.required = true := by simp_all
      exact (Node.Finds.check hc (.absent hk habsent hreq)).foundFrom
    · simp [Action.reports, Heading.absentReports, hrequired] at hx
  | visit k w below =>
    have hk := comes_of_visit ha
    have hfound := visit k w below hk x hx
    rw [p.path_at_eq] at hfound
    exact hfound.visit hc hk

theorem Check.foundFrom_of_reports (hc : c ∈ n.checks)
    (visit : ∀ k w below, c.Comes v k w below →
      ∀ x ∈ k.reports s w (p.at below), k.FoundFrom s w (p.at below).path x)
    (target : ∀ name k, c = .schemaFormat name → s.subroutines.lookup (.format name) = some k →
      .format name ∉ p.entered →
        ∀ x ∈ k.reports s v (p.enter (.format name)), k.FoundFrom s v p.path x)
    (hx : x ∈ c.reports s n.heading v p) : n.FoundFrom s v p.path x := by
  cases c using Check.byKind with
  | reference text place =>
    rw [reports_reference] at hx
    exact (Node.Finds.check hc (finds_of_demand rfl hx)).foundFrom
  | schemaFormat name =>
    rw [reports_schemaFormat] at hx
    cases hk : s.subroutines.lookup (.format name) with
    | none => simp [hk] at hx
    | some k =>
      by_cases hentered : .format name ∈ p.entered
      · simp [hk, hentered] at hx
      · simp only [hk, hentered, if_false] at hx
        exact (target name k rfl hk hentered x hx).format hc hk
  | negation m place =>
    rw [reports_negation] at hx
    exact (Node.Finds.check hc (finds_of_demand rfl hx)).foundFrom
  | anyOf ns place =>
    rw [reports_anyOf] at hx
    exact (Node.Finds.check hc (finds_of_demand rfl hx)).foundFrom
  | oneOf ns place =>
    rw [reports_oneOf] at hx
    exact (Node.Finds.check hc (finds_of_demand rfl hx)).foundFrom
  | direct c hdirect => exact foundFrom_of_direct hdirect hc visit hx

/-- What a node reports it finds with its heading, or one of its checks reports it. -/
theorem Node.foundFrom_of_reports
    (checks : ∀ c ∈ n.checks, ∀ x ∈ c.reports s n.heading v p, n.FoundFrom s v p.path x)
    (hx : x ∈ n.reports s v p) : n.FoundFrom s v p.path x := by
  obtain ⟨h, head, tail⟩ := n
  rw [reports_mk] at hx
  have hof : ∀ cs : List Check, cs ⊆ head ++ tail → x ∈ cs.flatMap (fun c => c.reports s h v p) →
      (mk h head tail).FoundFrom s v p.path x := by
    intro cs hsub hx
    obtain ⟨c, hc, hx⟩ := List.mem_flatMap.mp hx
    exact checks c (hsub hc) x hx
  by_cases htype : h.acceptsType v = true
  · simp only [htype, if_true, List.mem_append] at hx
    rcases hx with (hx | hx) | hx
    · exact hof head (List.subset_append_left head tail) hx
    · obtain ⟨name, hname, rfl⟩ := List.mem_map.mp hx
      exact (Node.Finds.missing hname).foundFrom
    · split at hx
      · exact hof tail (List.subset_append_right head tail) hx
      · cases hx
  · simp only [htype, Bool.false_eq_true, if_false, List.mem_singleton] at hx
    rw [hx]
    have htype : (mk h head tail).heading.acceptsType v = false := Bool.eq_false_iff.mpr htype
    exact (Node.Finds.type htype).foundFrom

/-- **Every report of a run is found by a node that the run comes to.** -/
theorem Node.exists_finds (hx : x ∈ n.reports s v p) : n.FoundFrom s v p.path x := by
  have key := s.run_induction
    (P := fun n v p => ∀ x ∈ n.reports s v p, n.FoundFrom s v p.path x)
    (Q := fun c v p => ∀ n : Node, c ∈ n.checks →
      ∀ x ∈ c.reports s n.heading v p, n.FoundFrom s v p.path x) ?_ ?_
  · exact key.1 n v p x hx
  · intro n v p checks x hx
    exact foundFrom_of_reports (fun c hc => checks c hc n hc) hx
  · intro c v p here below target n hc x hx
    refine Check.foundFrom_of_reports hc ?_ ?_ hx
    · intro k w seg hk
      rcases hk.mem with ⟨rfl, rfl, hmem⟩ | ⟨⟨seg, rfl⟩, hw, hmem⟩
      · exact here k hmem
      · exact below k hmem w hw seg
    · rintro name k rfl hk hentered
      exact target _ k rfl hk hentered

end Runs

end JsonSchema
