import JsonSchema.Proofs.Matching
import JsonSchema.Regex.Ends

/-!
# End positions and matches

The end positions of a plain pattern are those of its matches. A loop collects positions round by
round and goes on from the fresh ones only; what is reached from the others is collected already.
No match goes back, so rounds that stay where they are can be left out, and a loop without an upper
bound is done after as many rounds as the text has characters.

* `Advances.shorten`: rounds over a text, as few as it has characters;
* `Computes.closure`: a loop collects what its rounds lead to;
* `Regex.ends_computes`: the end positions are those of matches;
* `Regex.occursIn_iff`: a pattern occurs in a text if it has a match.
-/

namespace JsonSchema

/-! ## Rounds that go on -/

/-- No step goes back or past the end of the text. -/
def Advances (size : Nat) (R : Nat → Nat → Prop) : Prop :=
  ∀ p q, R p q → p ≤ q ∧ q ≤ max p size

namespace Advances

variable {size n p q : Nat} {R : Nat → Nat → Prop}

theorem rounds (h : Advances size R) (n : Nat) : Advances size (Rounds R n) := by
  induction n with
  | zero =>
    rintro p q rfl
    exact ⟨Nat.le_refl q, Nat.le_max_left q size⟩
  | succ n ih =>
    rintro p q ⟨m, hm, hq⟩
    have := h p m hm
    have := ih m q hq
    omega

/-- Each round that goes on takes a position further. -/
theorem rounds_le_sub (h : Advances size R) (hn : Rounds R n p q) :
    ∃ k ≤ q - p, Rounds R k p q := by
  induction n generalizing p with
  | zero => exact ⟨0, Nat.zero_le _, hn⟩
  | succ n ih =>
    obtain ⟨m, hm, hq⟩ := hn
    obtain ⟨k, hk, hrounds⟩ := ih hq
    have hpm := h p m hm
    have hmq := h.rounds n m q hq
    by_cases heq : m = p
    · exact ⟨k, by omega, heq ▸ hrounds⟩
    · exact ⟨k + 1, by omega, m, hm, hrounds⟩

/-- **Rounds** that stay where they are can be left out. -/
theorem shorten (h : Advances size R) (hn : Rounds R n p q) : ∃ k ≤ size, Rounds R k p q := by
  obtain ⟨k, hk, hrounds⟩ := h.rounds_le_sub hn
  have := h.rounds n p q hn
  exact ⟨k, by omega, hrounds⟩

end Advances

namespace Regex

variable {text : Array Char}

mutual
/-- No match goes back or past the end of the text. -/
theorem matches_advances (a : Regex) : Advances text.size (a.Matches text) := by
  intro p q h
  cases a with
  | empty =>
    obtain rfl : q = p := h
    omega
  | one s =>
    obtain ⟨⟨c, hc, -⟩, rfl⟩ := h
    obtain ⟨hp, -⟩ := Array.getElem?_eq_some_iff.1 hc
    omega
  | anchor k =>
    obtain ⟨-, rfl⟩ := h
    omega
  | seq parts => exact matchesAll_advances parts p q h
  | alt ways => exact matchesAny_advances ways p q h
  | loop a least most greedy =>
    obtain ⟨n, -, -, hn⟩ := h
    exact (matches_advances a).rounds n p q hn
  | group index a => exact matches_advances a p q h
  | again _ _ _ | look _ _ _ | atomic _ => cases h

theorem matchesAll_advances (parts : List Regex) :
    Advances text.size (MatchesAll text parts) := by
  intro p q h
  cases parts with
  | nil =>
    obtain rfl : q = p := h
    omega
  | cons a parts =>
    obtain ⟨m, hm, hq⟩ := h
    have := matches_advances a p m hm
    have := matchesAll_advances parts m q hq
    omega

theorem matchesAny_advances (ways : List Regex) :
    Advances text.size (MatchesAny text ways) := by
  intro p q h
  cases ways with
  | nil => cases h
  | cons a ways =>
    obtain h | h := h
    · exact matches_advances a p q h
    · exact matchesAny_advances ways p q h
end

/-! ## Sets of positions -/

theorem mem_join {ps qs : List Nat} {q : Nat} : q ∈ join ps qs ↔ q ∈ ps ∨ q ∈ qs := by
  by_cases hq : q ∈ ps <;> simp [join, hq]

/-- A function takes a set of positions to those that a relation leads to. -/
def Computes (f : List Nat → List Nat) (R : Nat → Nat → Prop) : Prop :=
  ∀ ps q, q ∈ f ps ↔ ∃ p ∈ ps, R p q

namespace Computes

variable {f g : List Nat → List Nat} {R S : Nat → Nat → Prop}

theorem congr (h : Computes f R) (hRS : ∀ p q, R p q ↔ S p q) : Computes f S := by
  intro ps q
  rw [h ps q]
  simp only [hRS]

theorem stay : Computes (fun ps => ps) (fun p q => q = p) := fun ps q => by simp

/-- One after the other. -/
theorem trans (h : Computes f R) (h' : Computes g S) :
    Computes (fun ps => g (f ps)) (fun p q => ∃ m, R p m ∧ S m q) := by
  intro ps q
  rw [h' (f ps) q]
  simp only [h ps]
  constructor
  · rintro ⟨m, ⟨p, hp, hm⟩, hq⟩
    exact ⟨p, hp, m, hm, hq⟩
  · rintro ⟨p, hp, m, hm, hq⟩
    exact ⟨m, ⟨p, hp, hm⟩, hq⟩

theorem iterate (h : Computes f R) (n : Nat) : Computes (iterate f n) (Rounds R n) := by
  induction n with
  | zero => exact stay
  | succ n ih => exact h.trans ih

/-- What is reached from a set to which the relation adds nothing is in the set. -/
theorem mem_of_rounds {ps : List Nat} (hps : ∀ p ∈ ps, ∀ q, R p q → q ∈ ps) {n p q : Nat}
    (hp : p ∈ ps) (hn : Rounds R n p q) : q ∈ ps := by
  induction n generalizing p with
  | zero => exact hn ▸ hp
  | succ n ih =>
    obtain ⟨m, hm, hq⟩ := hn
    exact ih (hps p hp m hm) hq

/-- **A loop** collects what rounds lead to from what was seen, if it has gone on already from all
of that but the fresh positions. -/
theorem mem_closure (h : Computes f R) {n q : Nat} {fresh seen : List Nat}
    (hfresh : ∀ p ∈ fresh, p ∈ seen) (hdone : ∀ p ∈ seen, p ∉ fresh → ∀ q, R p q → q ∈ seen) :
    q ∈ closure f n fresh seen ↔ ∃ p ∈ seen, ∃ k ≤ n, Rounds R k p q := by
  induction n generalizing fresh seen with
  | zero => simp [closure, Rounds]
  | succ n ih =>
    have hnew (m : Nat) : m ∈ (f fresh).filter (fun q => !seen.contains q) ↔
        (∃ p ∈ fresh, R p m) ∧ m ∉ seen := by
      simp [h fresh m]
    have hstep : ∀ p ∈ seen, ∀ q, R p q →
        q ∈ seen ∨ q ∈ (f fresh).filter (fun q => !seen.contains q) := by
      intro p hp q hq
      by_cases hseen : q ∈ seen
      · exact .inl hseen
      by_cases hpf : p ∈ fresh
      · exact .inr ((hnew q).2 ⟨⟨p, hpf, hq⟩, hseen⟩)
      · exact .inl (hdone p hp hpf q hq)
    rw [Regex.closure]
    split
    · next hnil =>
      have hclosed : ∀ p ∈ seen, ∀ q, R p q → q ∈ seen := by
        intro p hp q hq
        exact (hstep p hp q hq).resolve_right (hnil ▸ List.not_mem_nil)
      constructor
      · intro hq
        exact ⟨q, hq, 0, Nat.zero_le _, rfl⟩
      · rintro ⟨p, hp, k, -, hk⟩
        exact mem_of_rounds hclosed hp hk
    · generalize (f fresh).filter (fun q => !seen.contains q) = new at hnew hstep
      have hexpanded : ∀ p ∈ seen ++ new, p ∉ new → ∀ q, R p q → q ∈ seen ++ new := by
        intro p hp hpn q hq
        exact List.mem_append.2 (hstep p ((List.mem_append.1 hp).resolve_right hpn) q hq)
      rw [ih (fun p hp => List.mem_append_right _ hp) hexpanded]
      constructor
      · rintro ⟨m, hm, k, hk, hrounds⟩
        rw [List.mem_append, hnew] at hm
        obtain hm | ⟨⟨p, hp, hR⟩, -⟩ := hm
        · exact ⟨m, hm, k, Nat.le_succ_of_le hk, hrounds⟩
        · exact ⟨p, hfresh p hp, k + 1, Nat.succ_le_succ hk, m, hR, hrounds⟩
      · rintro ⟨p, hp, k, hk, hrounds⟩
        cases k with
        | zero => exact ⟨p, List.mem_append_left _ hp, 0, Nat.zero_le _, hrounds⟩
        | succ k =>
          obtain ⟨m, hm, hrounds⟩ := hrounds
          exact ⟨m, List.mem_append.2 (hstep p hp m hm), k, Nat.le_of_succ_le_succ hk, hrounds⟩

theorem closure (h : Computes f R) (n : Nat) :
    Computes (fun ps => closure f n ps ps) (fun p q => ∃ k ≤ n, Rounds R k p q) :=
  fun _ _ => h.mem_closure (fun _ hp => hp) fun _ hp hfresh => absurd hp hfresh

/-- A loop that takes as many rounds as the text has characters takes all there are. -/
theorem closure_of_advances (h : Computes f R) {size n : Nat} (hR : Advances size R)
    (hn : size ≤ n) :
    Computes (fun ps => Regex.closure f n ps ps) (fun p q => ∃ k, Rounds R k p q) := by
  refine (h.closure n).congr fun p q => ?_
  constructor
  · rintro ⟨k, -, hk⟩
    exact ⟨k, hk⟩
  · rintro ⟨k, hk⟩
    obtain ⟨j, hj, hrounds⟩ := hR.shorten hk
    exact ⟨j, Nat.le_trans hj hn, hrounds⟩

end Computes

/-! ## The ends of a pattern -/

mutual
theorem ends_computes (text : Array Char) (a : Regex) (h : a.wellBounded = true) :
    Computes (a.ends text) (a.Matches text) := by
  cases a with
  | empty => exact .stay
  | one s =>
    intro ps q
    simp only [ends, Matches, List.mem_map, List.mem_filter, Option.any_eq_true]
    constructor
    · rintro ⟨p, ⟨hp, hc⟩, rfl⟩
      exact ⟨p, hp, hc, rfl⟩
    · rintro ⟨p, hp, hc, rfl⟩
      exact ⟨p, ⟨hp, hc⟩, rfl⟩
  | anchor k =>
    intro ps q
    simp only [ends, Matches, List.mem_filter]
    constructor
    · rintro ⟨hq, hk⟩
      exact ⟨q, hq, hk, rfl⟩
    · rintro ⟨p, hp, hk, rfl⟩
      exact ⟨hp, hk⟩
  | seq parts => exact endsOfAll_computes text parts h
  | alt ways => exact endsOfAny_computes text ways h
  | loop a least most greedy =>
    cases most with
    | some most =>
      simp only [wellBounded, Bool.and_eq_true, decide_eq_true_eq] at h
      obtain ⟨⟨h, hle⟩, -⟩ := h
      have ha := ends_computes text a h
      exact ((ha.iterate least).trans (ha.closure (most - least))).congr fun p q =>
        (rounds_upTo hle).symm
    | none =>
      simp only [wellBounded, Bool.and_eq_true] at h
      have ha := ends_computes text a h.1
      have hrounds := ha.closure_of_advances (matches_advances a) (Nat.le_succ text.size)
      exact ((ha.iterate least).trans hrounds).congr fun p q => rounds_atLeast.symm
  | group index a => exact ends_computes text a h
  | again _ _ _ | look _ _ _ | atomic _ => intro ps q; simp [ends, Matches]

theorem endsOfAll_computes (text : Array Char) (parts : List Regex)
    (h : allWellBounded parts = true) :
    Computes (endsOfAll text parts) (MatchesAll text parts) := by
  cases parts with
  | nil => exact .stay
  | cons a parts =>
    rw [allWellBounded, Bool.and_eq_true] at h
    exact (ends_computes text a h.1).trans (endsOfAll_computes text parts h.2)

theorem endsOfAny_computes (text : Array Char) (ways : List Regex)
    (h : allWellBounded ways = true) :
    Computes (endsOfAny text ways) (MatchesAny text ways) := by
  intro ps q
  cases ways with
  | nil => simp [endsOfAny, MatchesAny]
  | cons a ways =>
    rw [allWellBounded, Bool.and_eq_true] at h
    rw [endsOfAny, mem_join, ends_computes text a h.1, endsOfAny_computes text ways h.2]
    simp only [MatchesAny, and_or_left, exists_or]
end

/-- **A pattern occurs in a text** if it has a match. -/
theorem occursIn_iff {a : Regex} (h : a.wellBounded = true) (s : String) :
    a.occursIn s = true ↔
      ∃ p ≤ s.toList.length, ∃ q, a.Matches s.toList.toArray p q := by
  have hends := ends_computes s.toList.toArray a h (List.range (s.toList.length + 1))
  rw [occursIn, bne_iff_ne, List.size_toArray]
  constructor
  · intro hne
    obtain ⟨q, hq⟩ := List.exists_mem_of_ne_nil _ hne
    obtain ⟨p, hp, hmatch⟩ := (hends q).1 hq
    exact ⟨p, Nat.le_of_lt_succ (List.mem_range.1 hp), q, hmatch⟩
  · rintro ⟨p, hp, q, hmatch⟩ hnil
    have hq := (hends q).2 ⟨p, List.mem_range.2 (Nat.lt_succ_of_le hp), hmatch⟩
    rw [hnil] at hq
    exact List.not_mem_nil hq

end Regex

end JsonSchema
