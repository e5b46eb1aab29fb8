import JsonSchema.Proofs.Matching
import Mathlib.Logic.Relation

/-!
# Runs of automata

A run takes states from a list of work and puts those that a state leads to in front of it. What is
said of the threads at a position is said of the states that the work leads to: the run keeps that
whatever a taken state leads to is taken or still in the list, and it has fuel for the list and for
twice the states not taken yet.

* `Automaton.accepts_iff`: to accept is to lead to a state that accepts, or that reads and goes on;
* `Automaton.threads_holds`: the threads hold what the states of the work lead to;
* `Automaton.reach_iff`: reading on finds the accepting runs from states and from the start;
* `Automaton.occursIn_iff`: a text holds a match if there is an accepting run.
-/

namespace JsonSchema

namespace Automaton

variable {text : Array Char} {table : Array State} {a : Automaton} {p n m : Nat}

/-! ## Going on without reading -/

/-- Where a state goes on without reading a character. -/
def State.silent (text : Array Char) (p : Nat) : State → List Nat
  | read _ _ => []
  | check a next => if a.holds text p then [next] else []
  | fork first second => [first, second]
  | accept => []

def State.stops : State → Bool
  | read _ _ | accept => true
  | check _ _ | fork _ _ => false

theorem State.length_silent_le (text : Array Char) (p : Nat) (s : State) :
    (s.silent text p).length ≤ 2 := by
  cases s with
  | check k next => rw [silent]; split <;> simp
  | read | fork | accept => simp [silent]

/-- A state goes on at another without reading. -/
def Step (text : Array Char) (table : Array State) (p n m : Nat) : Prop :=
  ∃ s, table[n]? = some s ∧ m ∈ s.silent text p

abbrev Leads (text : Array Char) (table : Array State) (p : Nat) : Nat → Nat → Prop :=
  Relation.ReflTransGen (Step text table p)

theorem Accepts.step {r : Nat} (h : Step text table p n m) (hm : Accepts text table m p r) :
    Accepts text table n p r := by
  obtain ⟨s, hs, hmem⟩ := h
  obtain ⟨k, hk⟩ := hm
  cases s with
  | check c next =>
    rw [State.silent] at hmem
    split at hmem
    · rename_i hc
      obtain rfl := List.mem_singleton.1 hmem
      exact ⟨k + 1, .check hs hc hk⟩
    · cases hmem
  | fork first second =>
    obtain rfl | hmem := List.mem_cons.1 hmem
    · exact ⟨k + 1, .first hs hk⟩
    · obtain rfl := List.mem_singleton.1 hmem
      exact ⟨k + 1, .second hs hk⟩
  | read | accept => cases hmem

/-- A run ends at a state: it accepts at the position, or reads and accepts from then on. -/
def State.Ends (text : Array Char) (table : Array State) (p r : Nat) : State → Prop
  | accept => r = p
  | read s next => ∃ c, text[p]? = some c ∧ s.has c = true ∧ Accepts text table next (p + 1) r
  | check _ _ | fork _ _ => False

/-- To accept is to lead to a state that accepts, or that reads and goes on. -/
theorem accepts_iff {r : Nat} :
    Accepts text table n p r ↔
      ∃ m s, Leads text table p n m ∧ table[m]? = some s ∧ s.Ends text table p r := by
  constructor
  · rintro ⟨k, hk⟩
    induction hk with
    | accept h => exact ⟨_, _, .refl, h, rfl⟩
    | read h hc hs hnext => exact ⟨_, _, .refl, h, _, hc, hs, _, hnext⟩
    | check h ha _ ih =>
      obtain ⟨m, s, hm, hs⟩ := ih
      exact ⟨m, s, .head ⟨_, h, by simp [State.silent, ha]⟩ hm, hs⟩
    | first h _ ih | second h _ ih =>
      obtain ⟨m, s, hm, hs⟩ := ih
      exact ⟨m, s, .head ⟨_, h, by simp [State.silent]⟩ hm, hs⟩
  · rintro ⟨m, s, hm, hs, hends⟩
    induction hm using Relation.ReflTransGen.head_induction_on with
    | refl =>
      cases s with
      | accept =>
        obtain rfl := hends
        exact ⟨0, .accept hs⟩
      | read s next =>
        obtain ⟨c, hc, hhas, k, hk⟩ := hends
        exact ⟨k + 1, .read hs hc hhas hk⟩
      | check | fork => cases hends
    | head h _ ih => exact .step h ih

/-! ## Taking states -/

namespace Threads

variable {t : Threads} {s : State} {ns : List Nat}

/-- A state has been taken at a position. -/
def Took (t : Threads) (p n : Nat) : Prop := t.taken.getD n 0 = p + 1

instance (t : Threads) (p n : Nat) : Decidable (t.Took p n) :=
  inferInstanceAs (Decidable (_ = _))

/-- The threads hold what a state waits for. -/
def Holds (t : Threads) : State → Prop
  | .read s next => (s, next) ∈ t.readers
  | .accept => t.accepted = true
  | .check _ _ | .fork _ _ => False

def take (p n : Nat) (s : Option State) (t : Threads) : Threads where
  readers := match s with
    | some (.read s next) => (s, next) :: t.readers
    | _ => t.readers
  accepted := t.accepted || decide (s = some .accept)
  taken := t.taken.setIfInBounds n (p + 1)

theorem holds_take {x : Option State} :
    (t.take p n x).Holds s ↔ t.Holds s ∨ (x = some s ∧ s.stops = true) := by
  cases s with
  | read c next =>
    cases x with
    | none => simp [take, Holds]
    | some y => cases y <;> simp [take, Holds, State.stops, or_comm, eq_comm]
  | accept => simp [take, Holds, State.stops]
  | check _ _ | fork _ _ => simp [Holds, State.stops]

/-- A state in the table has been taken once it is taken, and so have those before. -/
theorem took_take {x : Option State} (hn : n < t.taken.size) :
    (t.take p n x).Took p m ↔ m = n ∨ t.Took p m := by
  simp only [Took, take, Array.getD_eq_getD_getElem?, Array.getElem?_setIfInBounds]
  by_cases h : n = m
  · subst h
    simp [hn]
  · simp [h, Ne.symm h]

/-- A run that is not choosy takes the first state unless it has been taken. -/
theorem add_cons {fuel : Nat} :
    add a false text p (fuel + 1) (n :: ns) t =
      if t.Took p n then add a false text p fuel ns t
      else add a false text p fuel ((a.states[n]?.elim [] (State.silent text p)) ++ ns)
        (t.take p n a.states[n]?) := by
  rw [add]
  by_cases h : t.Took p n
  · rw [if_pos h]
    exact if_pos h
  · rw [if_neg h]
    refine (if_neg h).trans ?_
    cases hn : a.states[n]? with
    | none => simp [take]
    | some s =>
      cases s with
      | check k next =>
        simp only [take, Option.elim_some, State.silent]
        split <;> simp
      | read | fork | accept => simp [take, State.silent]

/-! ### What is held comes from the work -/

theorem holds_of_add {fuel : Nat} (h : (add a false text p fuel ns t).Holds s) :
    t.Holds s ∨
      ∃ n ∈ ns, ∃ m, Leads text a.states p n m ∧ a.states[m]? = some s ∧ s.stops = true := by
  induction fuel generalizing ns t with
  | zero => exact .inl h
  | succ fuel ih =>
    cases ns with
    | nil => exact .inl h
    | cons n ns =>
      rw [add_cons] at h
      split at h
      · obtain h | ⟨l, hl, hleads⟩ := ih h
        · exact .inl h
        · exact .inr ⟨l, List.mem_cons_of_mem _ hl, hleads⟩
      · obtain h | ⟨l, hl, m, hm, hs⟩ := ih h
        · obtain h | ⟨hn, hstops⟩ := holds_take.1 h
          · exact .inl h
          · exact .inr ⟨n, List.mem_cons_self, n, .refl, hn, hstops⟩
        · obtain hl | hl := List.mem_append.1 hl
          · obtain ⟨x, hx, hl⟩ : ∃ x, a.states[n]? = some x ∧ l ∈ x.silent text p := by
              cases hx : a.states[n]? with
              | none => simp [hx] at hl
              | some x => exact ⟨x, rfl, by simpa [hx] using hl⟩
            exact .inr ⟨n, List.mem_cons_self, m, .head ⟨x, hx, hl⟩ hm, hs⟩
          · exact .inr ⟨l, List.mem_cons_of_mem _ hl, m, hm, hs⟩

/-! ### The work is done -/

/-- What a taken state waits for is held, and where it goes on is taken or among the work. -/
structure Settled (a : Automaton) (text : Array Char) (p : Nat) (t : Threads) (ns : List Nat) :
    Prop where
  size : t.taken.size = a.states.size
  holds {n : Nat} {s : State} (hn : t.Took p n) (hs : a.states[n]? = some s)
    (hstops : s.stops = true) : t.Holds s
  goes {n m : Nat} (hn : t.Took p n) (h : Step text a.states p n m) :
    t.Took p m ∨ m ∈ ns ∨ a.states[m]? = none

namespace Settled

theorem skip (h : Settled a text p t (n :: ns)) (hn : t.Took p n ∨ a.states[n]? = none) :
    Settled a text p t ns where
  size := h.size
  holds := h.holds
  goes hl hstep := by
    obtain hm | hm | hm := h.goes hl hstep
    · exact .inl hm
    · obtain rfl | hm := List.mem_cons.1 hm
      · exact hn.imp_right .inr
      · exact .inr (.inl hm)
    · exact .inr (.inr hm)

theorem take (h : Settled a text p t (n :: ns)) (hs : a.states[n]? = some s) :
    Settled a text p (t.take p n (some s)) (s.silent text p ++ ns) := by
  have hn : n < t.taken.size := by
    rw [h.size]
    exact (Array.getElem?_eq_some_iff.1 hs).1
  refine ⟨Array.size_setIfInBounds.trans h.size, ?_, ?_⟩
  · intro m x hm hx hstops
    rw [took_take hn] at hm
    rw [holds_take]
    obtain rfl | hm := hm
    · exact .inr ⟨hs.symm.trans hx, hstops⟩
    · exact .inl (h.holds hm hx hstops)
  · intro l m hl hstep
    rw [took_take hn] at hl ⊢
    rw [List.mem_append]
    obtain rfl | hl := hl
    · obtain ⟨x, hx, hm⟩ := hstep
      cases hs.symm.trans hx
      exact .inr (.inl (.inl hm))
    · obtain hm | hm | hm := h.goes hl hstep
      · exact .inl (.inr hm)
      · obtain rfl | hm := List.mem_cons.1 hm
        · exact .inl (.inl rfl)
        · exact .inr (.inl (.inr hm))
      · exact .inr (.inr hm)

end Settled

theorem take_none (hn : t.taken.size ≤ n) : t.take p n none = t := by
  have htaken : t.taken.setIfInBounds n (p + 1) = t.taken := by
    rw [Array.setIfInBounds, dif_neg (by omega)]
  simp only [take, htaken]
  cases t
  simp

def untakenCount (t : Threads) (p : Nat) : Nat := t.taken.countP (· != p + 1)

theorem untakenCount_take {x : Option State} (hn : n < t.taken.size) (h : ¬t.Took p n) :
    (t.take p n x).untakenCount p + 1 = t.untakenCount p := by
  have hentry : t.taken[n] ≠ p + 1 := by
    simpa [Took, Array.getD_eq_getD_getElem?, hn] using h
  have hpos : 0 < t.taken.countP (· != p + 1) :=
    Array.countP_pos_iff.2 ⟨t.taken[n], Array.getElem_mem hn, by simpa using hentry⟩
  simp only [untakenCount, take, Array.setIfInBounds, dif_pos hn, Array.countP_set]
  simp [hentry]
  omega

/-- With fuel enough nothing is left to be done, and all the work is taken. -/
theorem Settled.add (h : Settled a text p t ns) (fuel : Nat)
    (hfuel : ns.length + 2 * t.untakenCount p ≤ fuel) :
    Settled a text p (add a false text p fuel ns t) [] ∧
      ∀ l, t.Took p l ∨ l ∈ ns →
        (Threads.add a false text p fuel ns t).Took p l ∨ a.states[l]? = none := by
  induction fuel generalizing ns t with
  | zero =>
    obtain rfl : ns = [] := List.length_eq_zero_iff.1 (by omega)
    exact ⟨h, fun l hl => .inl (hl.resolve_right List.not_mem_nil)⟩
  | succ fuel ih =>
    cases ns with
    | nil => exact ⟨h, fun l hl => .inl (hl.resolve_right List.not_mem_nil)⟩
    | cons n ns =>
      rw [List.length_cons] at hfuel
      rw [add_cons]
      split
      · rename_i hn
        obtain ⟨hsettled, htook⟩ := ih (h.skip (.inl hn)) (by omega)
        refine ⟨hsettled, fun l hl => htook l ?_⟩
        rw [List.mem_cons] at hl
        obtain hl | rfl | hl := hl
        · exact .inl hl
        · exact .inl hn
        · exact .inr hl
      · rename_i hn
        cases hs : a.states[n]? with
        | none =>
          rw [take_none (h.size ▸ Array.getElem?_eq_none_iff.1 hs)]
          obtain ⟨hsettled, htook⟩ := ih (h.skip (.inr hs)) (by omega)
          refine ⟨hsettled, fun l hl => ?_⟩
          rw [List.mem_cons] at hl
          obtain hl | rfl | hl := hl
          · exact htook l (.inl hl)
          · exact .inr hs
          · exact htook l (.inr hl)
        | some s =>
          have hsize : n < t.taken.size := by
            rw [h.size]
            exact (Array.getElem?_eq_some_iff.1 hs).1
          have hcount := untakenCount_take (x := some s) hsize hn
          have hsilent := s.length_silent_le text p
          obtain ⟨hsettled, htook⟩ := ih (h.take hs) (by
            rw [List.length_append]
            omega)
          refine ⟨hsettled, fun l hl => htook l ?_⟩
          rw [took_take hsize, List.mem_append]
          rw [List.mem_cons] at hl
          obtain hl | rfl | hl := hl
          · exact .inl (.inr hl)
          · exact .inl (.inl rfl)
          · exact .inr (.inr hl)

/-- States are taken at no later position. -/
def Until (p : Nat) (taken : Array Nat) : Prop := ∀ x ∈ taken, x ≤ p

theorem until_add {fuel : Nat} (h : Until (p + 1) t.taken) :
    Until (p + 1) (add a false text p fuel ns t).taken ∧
      (add a false text p fuel ns t).taken.size = t.taken.size := by
  induction fuel generalizing ns t with
  | zero => exact ⟨h, rfl⟩
  | succ fuel ih =>
    cases ns with
    | nil => exact ⟨h, rfl⟩
    | cons n ns =>
      rw [add_cons]
      split
      · exact ih h
      · have htake : Until (p + 1) (t.take p n a.states[n]?).taken := by
          intro x hx
          obtain hx | rfl := Array.mem_or_eq_of_mem_setIfInBounds hx
          · exact h x hx
          · exact Nat.le_refl _
        obtain ⟨huntil, hsize⟩ := ih htake
        exact ⟨huntil, hsize.trans Array.size_setIfInBounds⟩

/-- The states at which readers of a character go on. -/
theorem mem_after {c : Char} :
    m ∈ t.after c ↔ ∃ s, t.Holds (.read s m) ∧ s.has c = true := by
  have hfold (readers : List (CharSet × Nat)) (ns : List Nat) :
      m ∈ readers.foldl (fun ns e => if e.1.has c then e.2 :: ns else ns) ns ↔
        m ∈ ns ∨ ∃ s, (s, m) ∈ readers ∧ s.has c = true := by
    induction readers generalizing ns with
    | nil => simp
    | cons e readers ih =>
      obtain ⟨s, next⟩ := e
      rw [List.foldl_cons, ih]
      by_cases hs : s.has c = true
      · simp only [hs, if_true, List.mem_cons, Prod.mk.injEq]
        grind
      · simp only [hs, List.mem_cons, Prod.mk.injEq]
        grind
  have hafter : t.after c =
      t.readers.foldl (fun ns e => if e.1.has c then e.2 :: ns else ns) [] := rfl
  rw [hafter, hfold]
  simp [Holds]

end Threads

/-! ## The threads at a position -/

section

variable {taken : Array Nat} {ns : List Nat} {c : Char} {left : Nat}

open Threads (Until)

theorem until_threads (a : Automaton) (text : Array Char) (ns : List Nat) (h : Until p taken) :
    Until (p + 1) (a.threads false text p ns taken).taken ∧
      (a.threads false text p ns taken).taken.size = taken.size :=
  Threads.until_add fun x hx => Nat.le_succ_of_le (h x hx)

/-- **The threads** hold what the states of the work lead to. -/
theorem threads_holds {s : State} (hsize : taken.size = a.states.size) (h : Until p taken)
    (hstops : s.stops = true) :
    (a.threads false text p ns taken).Holds s ↔
      ∃ n ∈ ns, ∃ m, Leads text a.states p n m ∧ a.states[m]? = some s := by
  have hnone (n : Nat) : ¬(Threads.fresh taken).Took p n := by
    intro hn
    rw [Threads.Took, Threads.fresh, Array.getD_eq_getD_getElem?] at hn
    cases hx : taken[n]? with
    | none =>
      rw [hx] at hn
      cases hn
    | some x =>
      have hle := h x (Array.mem_of_getElem? hx)
      rw [hx, Option.getD_some] at hn
      omega
  have hfresh : Threads.Settled a text p (.fresh taken) ns :=
    ⟨hsize, fun hn => absurd hn (hnone _), fun hn => absurd hn (hnone _)⟩
  have hcount : (Threads.fresh taken).untakenCount p ≤ a.states.size :=
    hsize ▸ Array.countP_le_size
  obtain ⟨hsettled, htook⟩ := hfresh.add (2 * a.states.size + ns.length) (by omega)
  constructor
  · intro hs
    obtain hs | ⟨n, hn, m, hm, hs, -⟩ := Threads.holds_of_add hs
    · cases s with
      | read => exact absurd hs List.not_mem_nil
      | accept | check | fork => cases hs
    · exact ⟨n, hn, m, hm, hs⟩
  · rintro ⟨n, hn, m, hm, hs⟩
    have hmem : (a.threads false text p ns taken).Took p m ∨ a.states[m]? = none := by
      clear hs
      induction hm with
      | refl => exact htook n (.inr hn)
      | tail _ hstep ih =>
        obtain ih | ih := ih
        · exact (hsettled.goes ih hstep).imp_right fun h => h.resolve_left List.not_mem_nil
        · obtain ⟨s, hs, -⟩ := hstep
          cases ih.symm.trans hs
    obtain hmem | hmem := hmem
    · exact hsettled.holds hmem hs hstops
    · cases hmem.symm.trans hs

/-! ## Reading on -/

def Succeeds (text : Array Char) (a : Automaton) (p : Nat) (ns : List Nat) : Prop :=
  ∃ n ∈ ns, ∃ r, Accepts text a.states n p r

theorem succeeds_iff (hsize : taken.size = a.states.size) (h : Until p taken) :
    Succeeds text a p ns ↔
      (a.threads false text p ns taken).accepted = true ∨
        ∃ c, text[p]? = some c ∧
          Succeeds text a (p + 1) ((a.threads false text p ns taken).after c) := by
  have haccept : (a.threads false text p ns taken).Holds .accept ↔ _ := threads_holds hsize h rfl
  have hread (s : CharSet) (next : Nat) :
      (a.threads false text p ns taken).Holds (.read s next) ↔ _ := threads_holds hsize h rfl
  constructor
  · rintro ⟨n, hn, r, hr⟩
    obtain ⟨m, s, hm, hs, hends⟩ := accepts_iff.1 hr
    cases s with
    | accept => exact .inl (haccept.2 ⟨n, hn, m, hm, hs⟩)
    | read s next =>
      obtain ⟨c, hc, hhas, hnext⟩ := hends
      have hafter : next ∈ (a.threads false text p ns taken).after c :=
        Threads.mem_after.2 ⟨s, (hread s next).2 ⟨n, hn, m, hm, hs⟩, hhas⟩
      exact .inr ⟨c, hc, next, hafter, r, hnext⟩
    | check | fork => cases hends
  · rintro (hacc | ⟨c, hc, next, hafter, r, hr⟩)
    · obtain ⟨n, hn, m, hm, hacc⟩ := haccept.1 hacc
      exact ⟨n, hn, p, accepts_iff.2 ⟨m, _, hm, hacc, rfl⟩⟩
    · obtain ⟨s, hs, hhas⟩ := Threads.mem_after.1 hafter
      obtain ⟨n, hn, m, hm, hs⟩ := (hread s next).1 hs
      exact ⟨n, hn, r, accepts_iff.2 ⟨m, _, hm, hs, c, hc, hhas, hr⟩⟩

theorem succeeds_cons {ns : List Nat} :
    Succeeds text a p (n :: ns) ↔ Succeeds text a p [n] ∨ Succeeds text a p ns := by
  simp [Succeeds]

def Starts (text : Array Char) (a : Automaton) (p : Nat) : Prop :=
  ∃ q, p ≤ q ∧ q ≤ text.size ∧ Succeeds text a q [a.start]

theorem starts_iff (hp : p ≤ text.size) :
    Succeeds text a p ns ∨ Starts text a p ↔
      Succeeds text a p (a.start :: ns) ∨ Starts text a (p + 1) := by
  rw [succeeds_cons]
  constructor
  · rintro (hs | ⟨q, hpq, hq, hs⟩)
    · exact .inl (.inr hs)
    · obtain rfl | hlt := Nat.eq_or_lt_of_le hpq
      · exact .inl (.inl hs)
      · exact .inr ⟨q, hlt, hq, hs⟩
  · rintro ((hs | hs) | ⟨q, hpq, hq, hs⟩)
    · exact .inr ⟨p, Nat.le_refl p, hp, hs⟩
    · exact .inl hs
    · exact .inr ⟨q, Nat.le_of_succ_le hpq, hq, hs⟩

/-- **Reading on** to the end of the text finds what the states accept and what the start accepts
from then on. -/
theorem reach_iff (hleft : p + left = text.size) (hsize : taken.size = a.states.size)
    (h : Until p taken) :
    a.reach true text left p ns taken = true ↔ Succeeds text a p ns ∨ Starts text a p := by
  induction left generalizing p ns taken with
  | zero =>
    have hend : text[p]? = none := Array.getElem?_eq_none (by omega)
    have hlater : ¬Starts text a (p + 1) := by
      rintro ⟨q, hpq, hq, -⟩
      omega
    have hreach : a.reach true text 0 p ns taken =
        (a.threads false text p (a.start :: ns) taken).accepted := by
      unfold reach
      rfl
    rw [hreach, starts_iff (by omega), succeeds_iff hsize h]
    simp [hend, hlater]
  | succ left ih =>
    have hc : text[p]? = some text[p] := Array.getElem?_eq_getElem (by omega)
    have hreach : a.reach true text (left + 1) p ns taken =
        ((a.threads false text p (a.start :: ns) taken).accepted ||
          a.reach true text left (p + 1)
            ((a.threads false text p (a.start :: ns) taken).after text[p])
            (a.threads false text p (a.start :: ns) taken).taken) := by
      conv => lhs; unfold reach
      simp only [hc]
      rfl
    obtain ⟨huntil, hsize'⟩ := until_threads a text (a.start :: ns) h
    rw [hreach, Bool.or_eq_true, ih (by omega) (hsize'.trans hsize) huntil,
      starts_iff (p := p) (by omega), succeeds_iff hsize h]
    simp [hc, or_assoc]

end

/-- **A match occurs** in a text if an accepting run starts somewhere in it. -/
theorem occursIn_iff :
    a.occursIn text = true ↔ ∃ p ≤ text.size, ∃ r, Accepts text a.states a.start p r := by
  have huntil : Threads.Until 0 a.untaken := fun x hx =>
    Nat.le_of_eq (Array.mem_replicate.1 hx).2
  have hsize : a.untaken.size = a.states.size := Array.size_replicate
  rw [occursIn, reach_iff (Nat.zero_add _) hsize huntil]
  simp [Succeeds, Starts]

end Automaton

end JsonSchema
