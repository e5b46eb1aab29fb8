import JsonSchema.Proofs.EndPositions
import Mathlib.Computability.Language

/-!
# Languages of patterns

A pattern without anchors matches along the words of a language, whatever stands around them:
sequences are products, alternatives are sums, and the rounds of a loop are powers. So a pattern
for whole texts occurs in the texts of its language and in no other.

* `LeadsAlong`: a relation between positions that goes along the words of a language;
* `Regex.language`: the language of a pattern;
* `Regex.matches_leadsAlong`: matches go along the words of the language;
* `Regex.occursIn_whole_iff`: a pattern for whole texts occurs in the texts of its language.
-/

namespace JsonSchema

open Computability

/-! ## Parts of a text -/

/-- A text has the given characters from one position to another. -/
def Spells (text : Array Char) : List Char → Nat → Nat → Prop
  | [], p, q => q = p
  | c :: cs, p, q => text[p]? = some c ∧ Spells text cs (p + 1) q

section

variable {text : Array Char}

theorem spells_append {cs ds : List Char} {p q : Nat} :
    Spells text (cs ++ ds) p q ↔ ∃ m, Spells text cs p m ∧ Spells text ds m q := by
  induction cs generalizing p with
  | nil => simp [Spells]
  | cons c cs ih => simp only [List.cons_append, Spells, ih, and_assoc, exists_and_left]

theorem spells_to_end {cs : List Char} {p : Nat} (hp : p ≤ text.size) :
    Spells text cs p text.size ↔ cs = text.toList.drop p := by
  induction cs generalizing p with
  | nil =>
    rw [Spells, eq_comm (a := []), List.drop_eq_nil_iff, Array.length_toList]
    omega
  | cons c cs ih =>
    rw [Spells]
    by_cases hlt : p < text.size
    · have hdrop : text.toList.drop p = text[p] :: text.toList.drop (p + 1) := by
        rw [List.drop_eq_getElem_cons (by simpa using hlt), Array.getElem_toList]
      rw [ih hlt, hdrop, List.cons.injEq, Array.getElem?_eq_getElem hlt, Option.some.injEq,
        eq_comm (a := c)]
    · have hnone : text[p]? = none := Array.getElem?_eq_none (by omega)
      have hdrop : text.toList.drop p = [] := List.drop_eq_nil_of_le (by simp; omega)
      simp [hnone, hdrop]

/-- The whole text. -/
theorem spells_whole {cs : List Char} : Spells text cs 0 text.size ↔ cs = text.toList :=
  spells_to_end (Nat.zero_le _)

/-- A relation between the positions of texts that goes along the words of a language. -/
def LeadsAlong (text : Array Char) (R : Nat → Nat → Prop) (L : Language Char) : Prop :=
  ∀ p q, R p q ↔ ∃ cs ∈ L, Spells text cs p q

namespace LeadsAlong

variable {R S : Nat → Nat → Prop} {L M : Language Char}

theorem one : LeadsAlong text (fun p q => q = p) 1 := fun p q => by simp [Language.mem_one, Spells]

theorem mul (h : LeadsAlong text R L) (h' : LeadsAlong text S M) :
    LeadsAlong text (fun p q => ∃ m, R p m ∧ S m q) (L * M) := by
  intro p q
  constructor
  · rintro ⟨m, hm, hq⟩
    obtain ⟨cs, hcs, hspell⟩ := (h p m).1 hm
    obtain ⟨ds, hds, hspell'⟩ := (h' m q).1 hq
    exact ⟨cs ++ ds, Language.append_mem_mul hcs hds, spells_append.2 ⟨m, hspell, hspell'⟩⟩
  · rintro ⟨_, hmem, hspell⟩
    obtain ⟨cs, hcs, ds, hds, rfl⟩ := Language.mem_mul.1 hmem
    obtain ⟨m, hcs', hds'⟩ := spells_append.1 hspell
    exact ⟨m, (h p m).2 ⟨cs, hcs, hcs'⟩, (h' m q).2 ⟨ds, hds, hds'⟩⟩

theorem add (h : LeadsAlong text R L) (h' : LeadsAlong text S M) :
    LeadsAlong text (fun p q => R p q ∨ S p q) (L + M) := by
  intro p q
  simp only [h p q, h' p q, Language.mem_add, or_and_right, exists_or]

theorem rounds (h : LeadsAlong text R L) (n : Nat) : LeadsAlong text (Rounds R n) (L ^ n) := by
  induction n with
  | zero => exact one
  | succ n ih =>
    rw [pow_succ']
    exact h.mul ih

end LeadsAlong

end

/-! ## Regular patterns -/

namespace Regex

mutual
/-- The texts that a regular pattern matches. -/
def language : Regex → Language Char
  | empty => 1
  | one s => {cs | ∃ c, s.has c = true ∧ cs = [c]}
  | seq parts => languageOfAll parts
  | alt ways => languageOfAny ways
  | loop a least most _ =>
    {cs | ∃ n, least ≤ n ∧ (∀ m ∈ most, n ≤ m) ∧ cs ∈ language a ^ n}
  | group _ a => language a
  | anchor _ | again _ _ _ | look _ _ _ | atomic _ => 0

def languageOfAll : List Regex → Language Char
  | [] => 1
  | a :: parts => language a * languageOfAll parts

def languageOfAny : List Regex → Language Char
  | [] => 0
  | a :: ways => language a + languageOfAny ways
end

mutual
/-- Patterns of characters, sequences, alternatives and loops: what they match does not depend on
what stands around it. -/
def regular : Regex → Bool
  | empty | one _ => true
  | seq as | alt as => allRegular as
  | loop a _ _ _ | group _ a => a.regular
  | anchor _ | again _ _ _ | look _ _ _ | atomic _ => false

def allRegular : List Regex → Bool
  | [] => true
  | a :: as => a.regular && allRegular as
end

mutual
/-- **The matches of a regular pattern** go along the words of its language. -/
theorem matches_leadsAlong (text : Array Char) (a : Regex) (h : a.regular = true) :
    LeadsAlong text (a.Matches text) a.language := by
  cases a with
  | empty => exact .one
  | one s =>
    intro p q
    simp only [Matches, language]
    constructor
    · rintro ⟨⟨c, hc, hs⟩, rfl⟩
      exact ⟨[c], ⟨c, hs, rfl⟩, hc, rfl⟩
    · rintro ⟨_, ⟨c, hs, rfl⟩, hc, hq⟩
      exact ⟨⟨c, hc, hs⟩, hq⟩
  | seq parts => exact matchesAll_leadsAlong text parts h
  | alt ways => exact matchesAny_leadsAlong text ways h
  | loop a least most greedy =>
    have ha := matches_leadsAlong text a h
    intro p q
    constructor
    · rintro ⟨n, hleast, hmost, hn⟩
      obtain ⟨cs, hcs, hspell⟩ := (ha.rounds n p q).1 hn
      exact ⟨cs, ⟨n, hleast, hmost, hcs⟩, hspell⟩
    · rintro ⟨cs, ⟨n, hleast, hmost, hcs⟩, hspell⟩
      exact ⟨n, hleast, hmost, (ha.rounds n p q).2 ⟨cs, hcs, hspell⟩⟩
  | group index a => exact matches_leadsAlong text a h
  | anchor _ | again _ _ _ | look _ _ _ | atomic _ => cases h

theorem matchesAll_leadsAlong (text : Array Char) (parts : List Regex)
    (h : allRegular parts = true) :
    LeadsAlong text (MatchesAll text parts) (languageOfAll parts) := by
  cases parts with
  | nil => exact .one
  | cons a parts =>
    rw [allRegular, Bool.and_eq_true] at h
    exact (matches_leadsAlong text a h.1).mul (matchesAll_leadsAlong text parts h.2)

theorem matchesAny_leadsAlong (text : Array Char) (ways : List Regex)
    (h : allRegular ways = true) :
    LeadsAlong text (MatchesAny text ways) (languageOfAny ways) := by
  cases ways with
  | nil =>
    intro p q
    simp [MatchesAny, languageOfAny]
  | cons a ways =>
    rw [allRegular, Bool.and_eq_true] at h
    exact (matches_leadsAlong text a h.1).add (matchesAny_leadsAlong text ways h.2)
end

/-! ## Whole texts -/

variable {s : CharSet} {a : Regex} {cs : List Char}

/-- **A pattern for whole texts** occurs in those of its language. -/
theorem occursIn_whole_iff (hbounds : (whole a).wellBounded = true)
    (hregular : a.regular = true) (s : String) :
    (whole a).occursIn s = true ↔ s.toList ∈ a.language := by
  simp only [occursIn_iff hbounds, matches_whole, matches_leadsAlong _ a hregular 0, spells_whole]
  constructor
  · rintro ⟨_, _, _, _, _, cs, hcs, rfl⟩
    exact hcs
  · intro hs
    exact ⟨0, Nat.zero_le _, _, rfl, rfl, s.toList, hs, rfl⟩

/-! ## Languages of combinators -/

theorem mem_language_one : cs ∈ (one s).language ↔ ∃ c, s.has c = true ∧ cs = [c] := Iff.rfl

theorem language_char (c : Char) : (char c).language = {[c]} := by
  ext cs
  rw [char, mem_language_one]
  simp only [CharSet.has_single, exists_eq_left]
  rfl

theorem language_seq (parts : List Regex) : (seq parts).language = (parts.map language).prod := by
  show languageOfAll parts = _
  induction parts with
  | nil => rfl
  | cons a parts ih => rw [languageOfAll, ih, List.map_cons, List.prod_cons]

theorem language_optional (a : Regex) : (optional a).language = 1 + a.language := by
  ext cs
  constructor
  · rintro ⟨n, -, hn, hcs⟩
    obtain rfl | rfl : n = 0 ∨ n = 1 := by have := hn 1 rfl; omega
    · exact .inl hcs
    · exact .inr (pow_one a.language ▸ hcs)
  · rintro (hcs | hcs)
    · exact ⟨0, Nat.le_refl _, by simp, hcs⟩
    · exact ⟨1, Nat.zero_le _, by simp, (pow_one a.language).symm ▸ hcs⟩

theorem language_many (a : Regex) : (many a).language = a.language∗ := by
  ext cs
  rw [Language.kstar_eq_iSup_pow, Language.mem_iSup]
  constructor
  · rintro ⟨n, -, -, hcs⟩
    exact ⟨n, hcs⟩
  · rintro ⟨n, hcs⟩
    exact ⟨n, Nat.zero_le n, by simp, hcs⟩

theorem mem_language_one_pow {n : Nat} :
    cs ∈ (one s).language ^ n ↔ cs.length = n ∧ ∀ c ∈ cs, s.has c = true := by
  induction n generalizing cs with
  | zero => simp +contextual [Language.mem_one, List.length_eq_zero_iff]
  | succ n ih =>
    rw [pow_succ', Language.mem_mul]
    constructor
    · rintro ⟨_, ⟨c, hc, rfl⟩, ds, hds, rfl⟩
      obtain ⟨hlength, hds⟩ := ih.1 hds
      exact ⟨congrArg (· + 1) hlength, List.forall_mem_cons.2 ⟨hc, hds⟩⟩
    · rintro ⟨hlength, hcs⟩
      obtain ⟨c, ds, rfl⟩ := List.exists_cons_of_length_eq_add_one hlength
      obtain ⟨hc, hds⟩ := List.forall_mem_cons.1 hcs
      exact ⟨[c], ⟨c, hc, rfl⟩, ds, ih.2 ⟨Nat.succ.inj hlength, hds⟩, rfl⟩

theorem mem_language_between_one {least most : Nat} :
    cs ∈ (between least most (one s)).language ↔
      least ≤ cs.length ∧ cs.length ≤ most ∧ ∀ c ∈ cs, s.has c = true := by
  constructor
  · rintro ⟨n, hleast, hmost, hcs⟩
    obtain ⟨rfl, hall⟩ := mem_language_one_pow.1 hcs
    exact ⟨hleast, hmost most rfl, hall⟩
  · rintro ⟨hleast, hmost, hall⟩
    exact ⟨cs.length, hleast, fun m hm => Option.some.inj hm ▸ hmost,
      mem_language_one_pow.2 ⟨rfl, hall⟩⟩

end Regex

end JsonSchema
