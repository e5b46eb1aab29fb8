import JsonSchema.Regex.Automaton
import JsonSchema.Regex.Size

/-!
# Matches of plain patterns

A plain pattern matches a text from one position to another, whatever way it goes. The automaton of
the pattern is built from its end: each part is built for the state at which it goes on. So what is
said of a part is how the ways from its start come to that state, and this goes through sequences,
alternatives and loops. A way is shorter once it has passed a part, which is what ends the
induction over the rounds of a loop.

* `Regex.Matches`: the matches of a plain pattern;
* `Automaton.Compiles`: states that go along a relation from one to another;
* `Automaton.Builds`: builders that append such states;
* `Automaton.accepts_ofRegex`: the automaton of a pattern accepts at the ends of its matches.
-/

namespace JsonSchema

/-! ## Matches -/

/-- A relation between positions a number of times, one after the other. -/
def Rounds (R : Nat → Nat → Prop) : Nat → Nat → Nat → Prop
  | 0, p, q => q = p
  | n + 1, p, q => ∃ m, R p m ∧ Rounds R n m q

theorem rounds_add {R : Nat → Nat → Prop} {m n p q : Nat} :
    Rounds R (m + n) p q ↔ ∃ k, Rounds R m p k ∧ Rounds R n k q := by
  induction m generalizing p with
  | zero => simp [Rounds]
  | succ m ih =>
    rw [Nat.succ_add]
    constructor
    · rintro ⟨i, hi, h⟩
      obtain ⟨k, hk, hq⟩ := ih.1 h
      exact ⟨k, ⟨i, hi, hk⟩, hq⟩
    · rintro ⟨k, ⟨i, hi, hk⟩, hq⟩
      exact ⟨i, hi, ih.2 ⟨k, hk, hq⟩⟩

theorem rounds_one {R : Nat → Nat → Prop} {p q : Nat} : Rounds R 1 p q ↔ R p q := by
  simp [Rounds]

/-- The rounds of a loop are as many as it must take and then as many more as it may take. -/
theorem rounds_between {R : Nat → Nat → Prop} {least p q : Nat} {most : Option Nat} :
    (∃ n, least ≤ n ∧ (∀ m ∈ most, n ≤ m) ∧ Rounds R n p q) ↔
      ∃ m, Rounds R least p m ∧ ∃ k, (∀ n ∈ most, least + k ≤ n) ∧ Rounds R k m q := by
  constructor
  · rintro ⟨n, hleast, hmost, hn⟩
    obtain ⟨k, rfl⟩ := Nat.exists_eq_add_of_le hleast
    obtain ⟨m, hm, hq⟩ := rounds_add.1 hn
    exact ⟨m, hm, k, hmost, hq⟩
  · rintro ⟨m, hm, k, hk, hq⟩
    exact ⟨least + k, Nat.le_add_right _ _, hk, rounds_add.2 ⟨m, hm, hq⟩⟩

theorem rounds_upTo {R : Nat → Nat → Prop} {least most p q : Nat} (h : least ≤ most) :
    (∃ n, least ≤ n ∧ (∀ m ∈ some most, n ≤ m) ∧ Rounds R n p q) ↔
      ∃ m, Rounds R least p m ∧ ∃ k ≤ most - least, Rounds R k m q := by
  rw [rounds_between]
  simp only [Option.mem_some_iff, forall_eq', Nat.le_sub_iff_add_le' h]

theorem rounds_atLeast {R : Nat → Nat → Prop} {least p q : Nat} :
    (∃ n, least ≤ n ∧ (∀ m ∈ (none : Option Nat), n ≤ m) ∧ Rounds R n p q) ↔
      ∃ m, Rounds R least p m ∧ ∃ k, Rounds R k m q := by
  rw [rounds_between]
  simp

namespace Regex

mutual
/-- A plain pattern matches the text from one position to another. -/
def Matches (text : Array Char) : Regex → Nat → Nat → Prop
  | empty, p, q => q = p
  | one s, p, q => (∃ c, text[p]? = some c ∧ s.has c = true) ∧ q = p + 1
  | anchor k, p, q => k.holds text p = true ∧ q = p
  | seq parts, p, q => MatchesAll text parts p q
  | alt ways, p, q => MatchesAny text ways p q
  | loop a least most _, p, q =>
    ∃ n, least ≤ n ∧ (∀ m ∈ most, n ≤ m) ∧ Rounds (Matches text a) n p q
  | group _ a, p, q => Matches text a p q
  | again _ _ _, _, _ => False
  | look _ _ _, _, _ => False
  | atomic _, _, _ => False

/-- The patterns match one after the other. -/
def MatchesAll (text : Array Char) : List Regex → Nat → Nat → Prop
  | [], p, q => q = p
  | a :: parts, p, q => ∃ m, Matches text a p m ∧ MatchesAll text parts m q

/-- One of the patterns matches. -/
def MatchesAny (text : Array Char) : List Regex → Nat → Nat → Prop
  | [], _, _ => False
  | a :: ways, p, q => Matches text a p q ∨ MatchesAny text ways p q
end

/-- The pattern for a whole text goes from its start to its end. -/
theorem matches_whole {text : Array Char} {a : Regex} {p q : Nat} :
    (whole a).Matches text p q ↔ p = 0 ∧ q = text.size ∧ a.Matches text 0 text.size := by
  simp only [whole, Matches, MatchesAll, Anchor.holds, beq_iff_eq]
  constructor
  · rintro ⟨_, ⟨rfl, rfl⟩, m, hm, _, ⟨rfl, rfl⟩, rfl⟩
    exact ⟨rfl, rfl, hm⟩
  · rintro ⟨rfl, rfl, hm⟩
    exact ⟨0, ⟨rfl, rfl⟩, _, hm, _, ⟨rfl, rfl⟩, rfl⟩

end Regex

/-! ## Ways through a table -/

namespace Automaton

variable {text : Array Char} {table : Array State}

/-- From a state at a position, a number of steps lead to an accepting state at another one. -/
inductive AcceptsIn (text : Array Char) (table : Array State) : Nat → Nat → Nat → Nat → Prop
  | accept {n p : Nat} (h : table[n]? = some .accept) : AcceptsIn text table 0 n p p
  | read {k n p r next : Nat} {s : CharSet} {c : Char} (h : table[n]? = some (.read s next))
      (hc : text[p]? = some c) (hs : s.has c = true)
      (hnext : AcceptsIn text table k next (p + 1) r) : AcceptsIn text table (k + 1) n p r
  | check {k n p r next : Nat} {a : Anchor} (h : table[n]? = some (.check a next))
      (ha : a.holds text p = true) (hnext : AcceptsIn text table k next p r) :
      AcceptsIn text table (k + 1) n p r
  | first {k n p r a b : Nat} (h : table[n]? = some (.fork a b))
      (hnext : AcceptsIn text table k a p r) : AcceptsIn text table (k + 1) n p r
  | second {k n p r a b : Nat} (h : table[n]? = some (.fork a b))
      (hnext : AcceptsIn text table k b p r) : AcceptsIn text table (k + 1) n p r

/-- From a state at a position, an accepting state is reached at another one. -/
def Accepts (text : Array Char) (table : Array State) (n p r : Nat) : Prop :=
  ∃ k, AcceptsIn text table k n p r

/-- To accept from `start` is to go along a relation and to accept from `next`, without a detour. -/
structure Compiles (text : Array Char) (table : Array State) (R : Nat → Nat → Prop)
    (start next : Nat) : Prop where
  sound {k p r : Nat} (h : AcceptsIn text table k start p r) :
    ∃ q, R p q ∧ ∃ j ≤ k, AcceptsIn text table j next q r
  complete {p q r : Nat} (h : R p q) (hnext : Accepts text table next q r) :
    Accepts text table start p r

namespace Compiles

variable {R S : Nat → Nat → Prop} {start mid next : Nat}

theorem stay (next : Nat) : Compiles text table (fun p q => q = p) next next where
  sound h := ⟨_, rfl, _, Nat.le_refl _, h⟩
  complete := by
    rintro p q r rfl h
    exact h

theorem congr (h : Compiles text table R start next) (hRS : ∀ p q, R p q ↔ S p q) :
    Compiles text table S start next := by
  have heq : R = S := funext fun p => funext fun q => propext (hRS p q)
  exact heq ▸ h

/-- One after the other. -/
theorem trans (h : Compiles text table R start mid) (h' : Compiles text table S mid next) :
    Compiles text table (fun p q => ∃ m, R p m ∧ S m q) start next where
  sound hk := by
    obtain ⟨m, hm, j, hj, hmid⟩ := h.sound hk
    obtain ⟨q, hq, i, hi, hnext⟩ := h'.sound hmid
    exact ⟨q, ⟨m, hm, hq⟩, i, Nat.le_trans hi hj, hnext⟩
  complete := by
    rintro p q r ⟨m, hm, hq⟩ hnext
    exact h.complete hm (h'.complete hq hnext)

theorem read {s : CharSet} (hstart : table[start]? = some (.read s next)) :
    Compiles text table (fun p q => (∃ c, text[p]? = some c ∧ s.has c = true) ∧ q = p + 1) start
      next where
  sound hk := by
    cases hk with
    | read h hc hs hnext =>
      cases hstart.symm.trans h
      exact ⟨_, ⟨⟨_, hc, hs⟩, rfl⟩, _, Nat.le_succ _, hnext⟩
    | accept h | check h | first h | second h => cases hstart.symm.trans h
  complete := by
    rintro p q r ⟨⟨c, hc, hs⟩, rfl⟩ ⟨k, hk⟩
    exact ⟨k + 1, .read hstart hc hs hk⟩

theorem check {a : Anchor} (hstart : table[start]? = some (.check a next)) :
    Compiles text table (fun p q => a.holds text p = true ∧ q = p) start next where
  sound hk := by
    cases hk with
    | check h ha hnext =>
      cases hstart.symm.trans h
      exact ⟨_, ⟨ha, rfl⟩, _, Nat.le_succ _, hnext⟩
    | accept h | read h | first h | second h => cases hstart.symm.trans h
  complete := by
    rintro p q r ⟨ha, rfl⟩ ⟨k, hk⟩
    exact ⟨k + 1, .check hstart ha hk⟩

/-- A step from a fork goes to either of the states. -/
theorem acceptsIn_fork {a b k p r : Nat} (hstart : table[start]? = some (.fork a b)) :
    AcceptsIn text table k start p r ↔
      ∃ j, k = j + 1 ∧ (AcceptsIn text table j a p r ∨ AcceptsIn text table j b p r) := by
  constructor
  · intro hk
    cases hk with
    | first h hnext =>
      cases hstart.symm.trans h
      exact ⟨_, rfl, .inl hnext⟩
    | second h hnext =>
      cases hstart.symm.trans h
      exact ⟨_, rfl, .inr hnext⟩
    | accept h | read h | check h => cases hstart.symm.trans h
  · rintro ⟨j, rfl, h | h⟩
    · exact .first hstart h
    · exact .second hstart h

theorem acceptsIn_branch {greedy : Bool} {body leave k p r : Nat}
    (hstart : table[start]? = some (branch greedy body leave)) :
    AcceptsIn text table k start p r ↔
      ∃ j, k = j + 1 ∧ (AcceptsIn text table j body p r ∨ AcceptsIn text table j leave p r) := by
  cases greedy with
  | true => exact acceptsIn_fork hstart
  | false =>
    rw [acceptsIn_fork hstart]
    simp only [or_comm]

theorem fork {a b : Nat} (hstart : table[start]? = some (.fork a b))
    (ha : Compiles text table R a next) (hb : Compiles text table S b next) :
    Compiles text table (fun p q => R p q ∨ S p q) start next where
  sound hk := by
    obtain ⟨j, rfl, h | h⟩ := (acceptsIn_fork hstart).1 hk
    · obtain ⟨q, hq, i, hi, hnext⟩ := ha.sound h
      exact ⟨q, .inl hq, i, Nat.le_succ_of_le hi, hnext⟩
    · obtain ⟨q, hq, i, hi, hnext⟩ := hb.sound h
      exact ⟨q, .inr hq, i, Nat.le_succ_of_le hi, hnext⟩
  complete := by
    rintro p q r (hq | hq) hnext
    · obtain ⟨k, hk⟩ := ha.complete hq hnext
      exact ⟨k + 1, .first hstart hk⟩
    · obtain ⟨k, hk⟩ := hb.complete hq hnext
      exact ⟨k + 1, .second hstart hk⟩

theorem branch {greedy : Bool} {body : Nat}
    (hstart : table[start]? = some (branch greedy body next))
    (hbody : Compiles text table R body next) :
    Compiles text table (fun p q => q = p ∨ R p q) start next where
  sound hk := by
    obtain ⟨j, rfl, h | h⟩ := (acceptsIn_branch hstart).1 hk
    · obtain ⟨q, hq, i, hi, hnext⟩ := hbody.sound h
      exact ⟨q, .inr hq, i, Nat.le_succ_of_le hi, hnext⟩
    · exact ⟨_, .inl rfl, j, Nat.le_succ j, h⟩
  complete := by
    rintro p q r (rfl | hq) hnext
    · obtain ⟨k, hk⟩ := hnext
      exact ⟨k + 1, (acceptsIn_branch hstart).2 ⟨k, rfl, .inr hk⟩⟩
    · obtain ⟨k, hk⟩ := hbody.complete hq hnext
      exact ⟨k + 1, (acceptsIn_branch hstart).2 ⟨k, rfl, .inl hk⟩⟩

/-- A body that comes back to the branch in front of it goes round any number of times. -/
theorem rounds {greedy : Bool} {body : Nat}
    (hstart : table[start]? = some (Automaton.branch greedy body next))
    (hbody : Compiles text table R body start) :
    Compiles text table (fun p q => ∃ n, Rounds R n p q) start next where
  sound := by
    intro k
    induction k using Nat.strongRecOn with
    | ind k ih =>
      intro p r hk
      obtain ⟨j, rfl, h | h⟩ := (acceptsIn_branch hstart).1 hk
      · obtain ⟨m, hm, i, hi, hback⟩ := hbody.sound h
        obtain ⟨q, ⟨n, hn⟩, l, hl, hnext⟩ := ih i (Nat.lt_succ_of_le hi) hback
        exact ⟨q, ⟨n + 1, m, hm, hn⟩, l, by omega, hnext⟩
      · exact ⟨p, ⟨0, rfl⟩, j, Nat.le_succ j, h⟩
  complete := by
    rintro p q r ⟨n, hn⟩ hnext
    induction n generalizing p with
    | zero =>
      obtain rfl : q = p := hn
      obtain ⟨k, hk⟩ := hnext
      exact ⟨k + 1, (acceptsIn_branch hstart).2 ⟨k, rfl, .inr hk⟩⟩
    | succ n ih =>
      obtain ⟨m, hm, hn⟩ := hn
      obtain ⟨k, hk⟩ := hbody.complete hm (ih hn)
      exact ⟨k + 1, (acceptsIn_branch hstart).2 ⟨k, rfl, .inl hk⟩⟩

end Compiles

/-! ## Building tables -/

/-- The second table holds the states that the first one holds from a number on. -/
def Agrees (low : Nat) (built table : Array State) : Prop :=
  ∀ i, low ≤ i → i < built.size → table[i]? = built[i]?

/-- The builder appends states, and a table that holds them goes along the relation to `next`. -/
structure Builds (text : Array Char) (part : Nat → Array State → Built)
    (R : Nat → Nat → Prop) : Prop where
  size_le (next : Nat) (old : Array State) : old.size ≤ (part next old).2.size
  keeps (next : Nat) {old : Array State} {i : Nat} (h : i < old.size) :
    (part next old).2[i]? = old[i]?
  compiles {next : Nat} {old table : Array State}
    (h : Agrees old.size (part next old).2 table) :
    Compiles text table R (part next old).1 next

namespace Builds

variable {part part' : Nat → Array State → Built} {R S : Nat → Nat → Prop}

theorem congr (h : Builds text part R) (hRS : ∀ p q, R p q ↔ S p q) : Builds text part S where
  size_le := h.size_le
  keeps := h.keeps
  compiles hagrees := (h.compiles hagrees).congr hRS

theorem stay : Builds text (fun next table => (next, table)) (fun p q => q = p) where
  size_le _ _ := Nat.le_refl _
  keeps _ _ _ _ := rfl
  compiles _ := .stay _

/-- One state. -/
theorem append {f : Nat → State}
    (h : ∀ {table : Array State} {start next : Nat}, table[start]? = some (f next) →
      Compiles text table R start next) :
    Builds text (fun next table => append (f next) table) R where
  size_le next old := by simp [Automaton.append]
  keeps next old i hi := by simp [Automaton.append, Array.getElem?_push, Nat.ne_of_lt hi]
  compiles {next old table} hagrees := by
    have hstate := hagrees old.size (Nat.le_refl _) (by simp [Automaton.append])
    exact h (hstate.trans (by simp [Automaton.append]))

/-- The second part is built first, and the first one goes on at it. -/
theorem trans (h : Builds text part R) (h' : Builds text part' S) :
    Builds text (fun next table => part (part' next table).1 (part' next table).2)
      (fun p q => ∃ m, R p m ∧ S m q) where
  size_le next old := Nat.le_trans (h'.size_le next old) (h.size_le _ _)
  keeps next old i hi := by
    rw [h.keeps _ (Nat.lt_of_lt_of_le hi (h'.size_le next old)), h'.keeps next hi]
  compiles {next old table} hagrees := by
    have hfirst : Compiles text table R (part (part' next old).1 (part' next old).2).1
        (part' next old).1 :=
      h.compiles fun i hlow hi => hagrees i (Nat.le_trans (h'.size_le next old) hlow) hi
    have hsecond : Agrees old.size (part' next old).2 table := fun i hlow hi => by
      rw [hagrees i hlow (Nat.lt_of_lt_of_le hi (h.size_le _ _)), h.keeps _ hi]
    exact hfirst.trans (h'.compiles hsecond)

theorem copies (h : Builds text part R) (n : Nat) :
    Builds text (copies part n) (Rounds R n) := by
  induction n with
  | zero => exact stay
  | succ n ih =>
    refine (ih.trans h).congr fun p q => ?_
    simp only [rounds_add, rounds_one]

/-- A part and a branch in front of it, to enter or to leave out the part. -/
theorem branch (h : Builds text part R) (greedy : Bool) :
    Builds text
      (fun next table => Automaton.append
        (Automaton.branch greedy (part next table).1 next) (part next table).2)
      (fun p q => q = p ∨ R p q) where
  size_le next old := by
    have := h.size_le next old
    simp only [Automaton.append, Array.size_push]
    omega
  keeps next old i hi := by
    have hsize := h.size_le next old
    rw [Automaton.append, Array.getElem?_push, if_neg (by omega), h.keeps next hi]
  compiles {next old table} hagrees := by
    have hsize := h.size_le next old
    have hstate := hagrees (part next old).2.size hsize (by simp [Automaton.append])
    have hbody : Agrees old.size (part next old).2 table := fun i hlow hi => by
      rw [hagrees i hlow (by simp only [Automaton.append, Array.size_push]; omega),
        Automaton.append, Array.getElem?_push, if_neg (by omega)]
    have hbranch : table[(part next old).2.size]? =
        some (Automaton.branch greedy (part next old).1 next) :=
      hstate.trans (by simp [Automaton.append])
    exact Compiles.branch hbranch (h.compiles hbody)

/-- Two parts with the same end and a fork in front of them. -/
theorem fork (h : Builds text part R) (h' : Builds text part' S) :
    Builds text
      (fun next table => Automaton.append
        (.fork (part next (part' next table).2).1 (part' next table).1)
        (part next (part' next table).2).2)
      (fun p q => R p q ∨ S p q) where
  size_le next old := by
    have hsecond := h'.size_le next old
    have hfirst := h.size_le next (part' next old).2
    simp only [Automaton.append, Array.size_push]
    omega
  keeps next old i hi := by
    have hsecond := h'.size_le next old
    have hfirst := h.size_le next (part' next old).2
    rw [Automaton.append, Array.getElem?_push, if_neg (by omega), h.keeps _ (by omega),
      h'.keeps next hi]
  compiles {next old table} hagrees := by
    have hsecond := h'.size_le next old
    have hfirst := h.size_le next (part' next old).2
    have hstate := hagrees (part next (part' next old).2).2.size (by omega)
      (by simp [Automaton.append])
    have hboth : Agrees old.size (part next (part' next old).2).2 table := fun i hlow hi => by
      rw [hagrees i hlow (by simp only [Automaton.append, Array.size_push]; omega),
        Automaton.append, Array.getElem?_push, if_neg (by omega)]
    have hother : Agrees old.size (part' next old).2 table := fun i hlow hi => by
      rw [hboth i hlow (by omega), h.keeps _ hi]
    refine Compiles.fork (hstate.trans ?_)
      (h.compiles fun i hlow hi => hboth i (by omega) hi) (h'.compiles hother)
    simp [Automaton.append]

theorem upTo (h : Builds text part R) (greedy : Bool) (n : Nat) :
    Builds text (fun next table => upTo part greedy next n table)
      (fun p q => ∃ k ≤ n, Rounds R k p q) := by
  induction n with
  | zero =>
    refine stay.congr fun p q => ?_
    simp [Rounds]
  | succ n ih =>
    refine ((h.trans ih).branch greedy).congr fun p q => ?_
    constructor
    · rintro (rfl | ⟨m, hm, k, hk, hq⟩)
      · exact ⟨0, Nat.zero_le _, rfl⟩
      · exact ⟨k + 1, Nat.succ_le_succ hk, m, hm, hq⟩
    · rintro ⟨k, hk, hq⟩
      cases k with
      | zero => exact .inl hq
      | succ k =>
        obtain ⟨m, hm, hq⟩ := hq
        exact .inr ⟨m, hm, k, Nat.le_of_succ_le_succ hk, hq⟩

/-- What a part that comes back to a branch in front of it leaves in the table. -/
def looped (part : Nat → Array State → Built) (greedy : Bool) (next : Nat) (old : Array State) :
    Array State :=
  (part old.size (old.push .accept)).2.setIfInBounds old.size
    (Automaton.branch greedy (part old.size (old.push .accept)).1 next)

section

variable (h : Builds text part R)

include h

theorem looped_size (greedy : Bool) (next : Nat) (old : Array State) :
    old.size < (looped part greedy next old).size := by
  have hsize := h.size_le old.size (old.push .accept)
  rw [Array.size_push] at hsize
  rw [looped, Array.size_setIfInBounds]
  omega

theorem looped_keeps {greedy : Bool} {next i : Nat} {old : Array State} (hi : i < old.size) :
    (looped part greedy next old)[i]? = old[i]? := by
  rw [looped, Array.getElem?_setIfInBounds_ne (by omega), h.keeps _ (by simp; omega),
    Array.getElem?_push, if_neg (by omega)]

theorem looped_compiles {greedy : Bool} {next : Nat} {old table : Array State}
    (hagrees : Agrees old.size (looped part greedy next old) table) :
    Compiles text table R (part old.size (old.push .accept)).1 old.size ∧
      Compiles text table (fun p q => ∃ n, Rounds R n p q) old.size next := by
  have hsize := looped_size h greedy next old
  have hstate := hagrees old.size (Nat.le_refl _) hsize
  rw [looped, Array.size_setIfInBounds] at hsize
  have hbody : Compiles text table R (part old.size (old.push .accept)).1 old.size := by
    refine h.compiles fun i hlow hi => ?_
    rw [Array.size_push] at hlow
    rw [hagrees i (by omega) (by rw [looped, Array.size_setIfInBounds]; exact hi), looped,
      Array.getElem?_setIfInBounds_ne (by omega)]
  have hbranch : table[old.size]? =
      some (Automaton.branch greedy (part old.size (old.push .accept)).1 next) := by
    rw [hstate, looped, Array.getElem?_setIfInBounds_self_of_lt hsize]
  exact ⟨hbody, hbody.rounds hbranch⟩

theorem again (greedy : Bool) :
    Builds text (again part greedy) (fun p q => ∃ n, Rounds R (n + 1) p q) where
  size_le next old := Nat.le_of_lt (looped_size h greedy next old)
  keeps next _ _ hi := looped_keeps h hi
  compiles {next old table} hagrees := by
    obtain ⟨hbody, hloop⟩ := looped_compiles h hagrees
    refine (hbody.trans hloop).congr fun p q => ?_
    constructor
    · rintro ⟨m, hm, n, hn⟩
      exact ⟨n, m, hm, hn⟩
    · rintro ⟨n, m, hm, hn⟩
      exact ⟨m, hm, n, hn⟩

theorem anyNumber (greedy mayBeEmpty : Bool) :
    Builds text (anyNumber part greedy mayBeEmpty) (fun p q => ∃ n, Rounds R n p q) := by
  cases mayBeEmpty with
  | true =>
    refine ((again h greedy).branch greedy).congr fun p q => ?_
    constructor
    · rintro (rfl | ⟨n, hn⟩)
      · exact ⟨0, rfl⟩
      · exact ⟨n + 1, hn⟩
    · rintro ⟨n, hn⟩
      cases n with
      | zero => exact .inl hn
      | succ n => exact .inr ⟨n, hn⟩
  | false =>
    exact {
      size_le := fun next old => Nat.le_of_lt (looped_size h greedy next old)
      keeps := fun next _ _ hi => looped_keeps h hi
      compiles := fun hagrees => (looped_compiles h hagrees).2 }

end

end Builds

/-! ## The automaton of a pattern -/

open Regex

mutual
/-- **Building** a plain pattern whose loops have their bounds in order gives its matches. -/
theorem builds {kept : List Nat} (text : Array Char) (a : Regex) (hplain : a.plain kept = true)
    (hbounds : a.wellBounded = true) : Builds text (build a) (Matches text a) := by
  cases a with
  | empty => exact .stay
  | one s => exact .append fun h => .read h
  | anchor k => exact .append fun h => .check h
  | seq parts => exact buildsAll text parts hplain hbounds
  | alt ways => exact buildsAny text ways hplain hbounds
  | loop a least most greedy =>
    cases most with
    | some most =>
      simp only [wellBounded, Bool.and_eq_true, decide_eq_true_eq] at hbounds
      obtain ⟨⟨hbounds, hle⟩, -⟩ := hbounds
      have ha := builds text a hplain hbounds
      exact ((ha.copies least).trans (ha.upTo greedy (most - least))).congr fun p q =>
        (rounds_upTo hle).symm
    | none =>
      simp only [wellBounded, Bool.and_eq_true] at hbounds
      have ha := builds text a hplain hbounds.1
      cases least with
      | zero =>
        refine (ha.anyNumber greedy (a.width.least == 0)).congr fun p q => ?_
        simp [Matches]
      | succ least =>
        refine ((ha.copies least).trans (ha.again greedy)).congr fun p q => ?_
        constructor
        · rintro ⟨m, hm, k, hq⟩
          exact ⟨least + (k + 1), by omega, nofun, rounds_add.2 ⟨m, hm, hq⟩⟩
        · rintro ⟨n, hleast, -, hn⟩
          obtain ⟨k, rfl⟩ := Nat.exists_eq_add_of_le hleast
          rw [Nat.add_assoc, Nat.add_comm 1] at hn
          obtain ⟨m, hm, hq⟩ := rounds_add.1 hn
          exact ⟨m, hm, k, hq⟩
  | group index a =>
    rw [plain, Bool.and_eq_true] at hplain
    exact builds text a hplain.1 hbounds
  | again _ _ _ | look _ _ _ | atomic _ => cases hplain

theorem buildsAll {kept : List Nat} (text : Array Char) (parts : List Regex)
    (hplain : plainAll kept parts = true) (hbounds : allWellBounded parts = true) :
    Builds text (buildAll parts) (MatchesAll text parts) := by
  cases parts with
  | nil => exact .stay
  | cons a parts =>
    rw [plainAll, Bool.and_eq_true] at hplain
    rw [allWellBounded, Bool.and_eq_true] at hbounds
    exact (builds text a hplain.1 hbounds.1).trans (buildsAll text parts hplain.2 hbounds.2)

theorem buildsAny {kept : List Nat} (text : Array Char) (ways : List Regex)
    (hplain : plainAll kept ways = true) (hbounds : allWellBounded ways = true) :
    Builds text (buildAny ways) (MatchesAny text ways) := by
  cases ways with
  | nil =>
    refine (Builds.append (f := .read .none) fun h => .read h).congr fun p q => ?_
    simp [MatchesAny, CharSet.has]
  | cons a ways =>
    rw [plainAll, Bool.and_eq_true] at hplain
    rw [allWellBounded, Bool.and_eq_true] at hbounds
    have ha := builds text a hplain.1 hbounds.1
    have hways := buildsAny text ways hplain.2 hbounds.2
    cases ways with
    | nil =>
      refine ha.congr fun p q => ?_
      simp [MatchesAny]
    | cons b ways => exact ha.fork hways
end

/-- **The automaton** of a plain pattern accepts at the ends of its matches. -/
theorem accepts_ofRegex {kept : List Nat} {a : Regex} (hplain : a.plain kept = true)
    (hbounds : a.wellBounded = true) (text : Array Char) {p r : Nat} :
    Accepts text (ofRegex a).states (ofRegex a).start p r ↔ a.Matches text p r := by
  have hbuilds := builds text a hplain hbounds
  have hcompiles : Compiles text (ofRegex a).states (a.Matches text) (ofRegex a).start 0 :=
    hbuilds.compiles fun i _ _ => rfl
  have haccept : (ofRegex a).states[0]? = some .accept := by
    have hkeeps := hbuilds.keeps 0 (show 0 < (#[.accept] : Array State).size by decide)
    exact hkeeps
  constructor
  · rintro ⟨k, hk⟩
    obtain ⟨q, hq, j, -, hj⟩ := hcompiles.sound hk
    cases hj with
    | accept => exact hq
    | read h | check h | first h | second h => cases haccept.symm.trans h
  · intro h
    exact hcompiles.complete h ⟨0, .accept haccept⟩

end Automaton

end JsonSchema
