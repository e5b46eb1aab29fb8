import JsonSchema.Proofs.Progress
import JsonSchema.Proofs.Unfilled
import Mathlib.Data.List.Nodup
import Mathlib.Data.List.Perm.Subperm

/-!
# Termination

Targets form cycles and are run again on the same value, so neither nodes nor values alone get
smaller along a run. But the guard keeps the open targets of one value distinct, of which there
are finitely many, and between two entries a run goes to parts of nodes. A guarded run therefore
ends, with a budget of one entry for each target and each level of the value; a mutating run does
so as well as long as it fills in nothing.

* `Event.Bounded`: the entries open on one value, and the nested nodes;
* `Scope.Sound.count_le`: no more entries are open on one value than there are targets;
* `Validator.ends`: all runs end.
-/

namespace JsonSchema

/-- No more targets are open on one value than there are, and nested nodes are parts of the nodes
that run them. -/
def Event.Bounded (s : Scope) : Event → Prop
  | .question q => ∀ path, q.opened.countP (fun e => e.2 == path) ≤ s.subroutines.length
  | .nested parent child => child.PartOf parent

/-- **No more entries are open on one value than there are targets.** -/
theorem Scope.Sound.count_le {s : Scope} {active : List (Target × Path)} (h : s.Sound active)
    (path : Path) : active.countP (fun e => e.2 == path) ≤ s.subroutines.length := by
  let here := active.filter fun e => e.2 == path
  have hpath : ∀ e ∈ here, e.2 = path := fun e he => by simpa using (List.mem_filter.mp he).2
  have hnodup : (here.map Prod.fst).Nodup := by
    refine List.Nodup.map_on (fun a ha b hb hab => ?_) (h.nodup.filter _)
    exact Prod.ext hab ((hpath a ha).trans (hpath b hb).symm)
  have hsub : here.map Prod.fst ⊆ s.subroutines.map Prod.fst := by
    intro k hk
    obtain ⟨e, he, rfl⟩ := List.mem_map.mp hk
    obtain ⟨n, hn⟩ := Option.isSome_iff_exists.mp (h.compiled e (List.mem_filter.mp he).1)
    exact List.mem_map.mpr ⟨_, mem_of_lookup hn, rfl⟩
  have hlen := (List.subperm_of_subset hnodup hsub).length_le
  rw [List.length_map, List.length_map] at hlen
  rw [List.countP_eq_length_filter]
  exact hlen

theorem Event.Safe.bounded {s : Scope} {e : Event} (h : e.Safe s) : e.Bounded s := by
  cases e with
  | question q => exact fun path => Scope.Sound.count_le h path
  | nested => exact h

namespace Validator

/-- No default is ever filled in: the options do not ask for it, or no schema object has one. -/
def FillsNothing (w : Validator) : Prop :=
  (w.options.filter = false ∧ w.options.useDefaults = false) ∨
    (∀ k : Node, k.Within w.root → k.heading.default = none) ∧
      ∀ t n, w.subroutines.lookup t = some n → ∀ k : Node, k.Within n → k.heading.default = none

theorem FillsNothing.unfilled {w : Validator} (h : w.FillsNothing) :
    w.root.Unfilled w.changes ∧
      ∀ t n, w.subroutines.lookup t = some n → n.Unfilled w.changes := by
  have hfill : ∀ k : Heading, w.changes.fill = false ∨ k.default = none →
      k.filling? w.changes = none := by
    rintro k (h | h)
    · simp [Heading.filling?, h]
    · simp [Heading.filling?, h]
  rcases h with ⟨hf, hu⟩ | ⟨hroot, htable⟩
  · have hoff : w.changes.fill = false := by simp [changes, hf, hu]
    exact ⟨fun k _ => hfill _ (.inl hoff), fun t n _ k _ => hfill _ (.inl hoff)⟩
  · exact ⟨fun k hk => hfill _ (.inr (hroot k hk)),
      fun t n hn k hk => hfill _ (.inr (htable t n hn k hk))⟩

/-- The guarded counterpart of a mutating run of a validator. -/
def guardedChange (w : Validator) (v : Json) : Option (Json × GuardedRun) :=
  w.root.change w.scope w.changes (w.subroutines.length * v.height) v []
    { tally := Tally.start w.recording }

theorem height_le_depth (w : Validator) (v : Json) : v.height ≤ w.depth v := by
  have hsize := v.height_le_size
  have hmul : v.size + w.size ≤ (v.size + w.size) * (w.size + 1) :=
    Nat.le_mul_of_pos_right _ (Nat.succ_pos _)
  rw [depth]
  omega

/-- **All runs end.** A run on any value, whatever cycles of targets there are, goes from nodes to
their parts, of which there is no endless row, and to targets, of which no more are open on one
value than there are. It has a result with a budget of one open entry for each target and each
level of the value. So has a mutating run that fills in nothing. -/
theorem ends (w : Validator) (v : Json) :
    WellFounded Node.PartOf ∧
      (∀ recording, ∃ r, w.guardedRun recording v = some r ∧
        r.tally = w.root.check w.scope v {} (Tally.start recording) ∧
          ∀ e ∈ r.log, e.Bounded w.scope) ∧
        (w.FillsNothing → ∃ v' r, w.guardedChange v = some (v', r) ∧
          w.validateMut v = some (verdict r.tally, v') ∧ ∀ e ∈ r.log, e.Bounded w.scope) := by
  refine ⟨Node.partOf_wellFounded, fun recording => ?_, fun hw => ?_⟩
  · obtain ⟨r, hrun, htally, hlog⟩ := w.guardedRun_eq recording v
    exact ⟨r, hrun, htally, fun e he => (hlog e he).safe.bounded⟩
  · obtain ⟨hroot, htable⟩ := hw.unfilled
    obtain ⟨v', vs, -, happly, hchange⟩ :=
      Node.alters w.scope w.changes htable w.root v.height {} hroot [] _ (w.depth v) none
        Site.Guards.start Scope.Sound.start (Scope.budget_le v.height_pos {})
        (w.height_le_depth v) v (Nat.le_refl _)
    obtain ⟨es, hrun, hes⟩ := hchange { tally := Tally.start w.recording } rfl rfl
    refine ⟨v', _, hrun, ?_, fun e he => (hes e he).bounded⟩
    have hroot' : w.root.apply w.scope w.changes (w.depth v) v {} (Tally.start w.recording) = _ :=
      happly _
    rw [validateMut, validateMutWithin, hroot']
    rfl

theorem circle_answered : (circle.guardedChange (.string "a")).map (fun x => x.2.answered) =
    some [(.reference "#/definitions/a", [], false), (.reference "#/definitions/b", [], true),
      (.reference "#/definitions/a", [], true)] := by
  have hheight : (Json.string "a").height = 1 := by decide
  have hrecording : circle.recording = .brief := by decide
  have hother : (Target.reference "#/definitions/b" == .reference "#/definitions/a") = false := by
    decide
  rw [guardedChange, hheight, hrecording]
  simp [circle, scope, Node.change, Check.change, Node.run, Check.run, List.lookup_cons, hother,
    Heading.acceptsType, Heading.missing, GuardedRun.reportMissing, GuardedRun.guarded,
    GuardedRun.guardedChange, GuardedRun.probeChange, spend, GuardedRun.probe, GuardedRun.suspend,
    GuardedRun.quietSince, GuardedRun.rewind, GuardedRun.enter, GuardedRun.leave, GuardedRun.note,
    GuardedRun.demand, GuardedRun.answered, Tally.start]

/-- The first target leads to the second one, which asks for the first one again, on the same value.
It is not entered once more. -/
theorem ends_circle : circle.FillsNothing ∧
    ∃ v' r, circle.guardedChange (.string "a") = some (v', r) ∧
      circle.validateMut (.string "a") = some (verdict r.tally, v') ∧
      (∀ e ∈ r.log, e.Bounded circle.scope) ∧
      r.answered = [(.reference "#/definitions/a", [], false),
        (.reference "#/definitions/b", [], true), (.reference "#/definitions/a", [], true)] := by
  have hfills : circle.FillsNothing := Or.inl ⟨rfl, rfl⟩
  obtain ⟨v', r, hrun, hmut, hlog⟩ := (ends circle (.string "a")).2.2 hfills
  have hanswered := circle_answered
  rw [hrun] at hanswered
  exact ⟨hfills, v', r, hrun, hmut, hlog, Option.some.inj hanswered⟩

end Validator

end JsonSchema
