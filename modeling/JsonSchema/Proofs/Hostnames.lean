import JsonSchema.Format.Builtin
import JsonSchema.Proofs.Languages

/-!
# Hostnames

The pattern for hostnames is regular, so it occurs in the texts of its language, and this is read
off from the inside out: first a label, then labels with dots between them, then the dot that may
end the name. No label has a dot in it, so the labels are the pieces between the dots, and a name
without its last dot does not end with another one.

* `Format.IsLabel`: labels;
* `Format.IsHostname`: hostnames;
* `Format.mem_language_dotted`: labels with dots between them are the pieces of a text;
* `Format.builtin?_hostname`: the format accepts hostnames.
-/

namespace JsonSchema.Format

open Regex Computability

/-! ## Labels -/

/-- Letters and digits of ASCII, and dashes. -/
def IsNameChar (c : Char) : Prop := c.isAlphanum = true ∨ c = '-'

/-- One to 63 letters, digits and dashes, and no dash at an end. -/
structure IsLabel (cs : List Char) : Prop where
  nonempty : 1 ≤ cs.length
  length_le : cs.length ≤ 63
  chars : ∀ c ∈ cs, IsNameChar c
  head : cs.head? ≠ some '-'
  last : cs.getLast? ≠ some '-'

instance (c : Char) : Decidable (IsNameChar c) := inferInstanceAs (Decidable (_ ∨ _))

instance (cs : List Char) : Decidable (IsLabel cs) :=
  haveI : Decidable (∀ c ∈ cs, IsNameChar c) := List.decidableBAll IsNameChar cs
  decidable_of_iff (1 ≤ cs.length ∧ cs.length ≤ 63 ∧ (∀ c ∈ cs, IsNameChar c) ∧
      cs.head? ≠ some '-' ∧ cs.getLast? ≠ some '-')
    ⟨fun h => ⟨h.1, h.2.1, h.2.2.1, h.2.2.2.1, h.2.2.2.2⟩,
      fun h => ⟨h.nonempty, h.length_le, h.chars, h.head, h.last⟩⟩

theorem has_asciiAlphanumeric (c : Char) : asciiAlphanumeric.has c = c.isAlphanum := by
  have hspans : c.isAlphanum = (decide ('A' ≤ c ∧ c ≤ 'Z') || (decide ('a' ≤ c) && decide (c ≤ 'z'))
      || (decide ('0' ≤ c) && decide (c ≤ '9'))) := rfl
  rw [hspans, Bool.eq_iff_iff]
  simp only [asciiAlphanumeric, CharSet.spans, List.foldr_cons, List.foldr_nil, CharSet.has,
    Bool.or_eq_true, Bool.and_eq_true, decide_eq_true_eq, Bool.false_eq_true, or_false]
  tauto

theorem has_nameChar (c : Char) :
    (CharSet.union asciiAlphanumeric (.single '-')).has c = true ↔ IsNameChar c := by
  rw [CharSet.has, Bool.or_eq_true, has_asciiAlphanumeric, CharSet.has_single, IsNameChar]

theorem ne_dash {c : Char} (h : c.isAlphanum = true) : c ≠ '-' := by
  rintro rfl
  cases h

theorem isLabel_singleton {c : Char} : IsLabel [c] ↔ c.isAlphanum = true := by
  constructor
  · intro h
    exact (h.chars c List.mem_cons_self).resolve_right fun hc => h.head (hc ▸ rfl)
  · intro h
    have hne := ne_dash h
    exact ⟨by simp, by simp, by simp [IsNameChar, h], by simpa using hne, by simpa using hne⟩

/-- A label of two characters or more has letters or digits at its ends. -/
theorem isLabel_ends {c d : Char} {ms : List Char} :
    IsLabel (c :: (ms ++ [d])) ↔ c.isAlphanum = true ∧ d.isAlphanum = true ∧ ms.length ≤ 61 ∧
      ∀ m ∈ ms, IsNameChar m := by
  constructor
  · intro h
    have hlength := h.length_le
    have hlast := h.last
    rw [List.length_cons, List.length_append, List.length_singleton] at hlength
    rw [← List.cons_append, List.getLast?_concat] at hlast
    refine ⟨(h.chars c (by simp)).resolve_right fun hc => h.head (hc ▸ rfl),
      (h.chars d (by simp)).resolve_right fun hd => hlast (hd ▸ rfl), by omega,
      fun m hm => h.chars m (by simp [hm])⟩
  · rintro ⟨hc, hd, hlength, hms⟩
    have hlength' : (c :: (ms ++ [d])).length ≤ 63 := by
      rw [List.length_cons, List.length_append, List.length_singleton]
      omega
    refine ⟨by simp, hlength', ?_, fun h => ne_dash hc (Option.some.inj h), ?_⟩
    · intro e he
      simp only [List.mem_cons, List.mem_append, List.not_mem_nil, or_false] at he
      obtain rfl | he | rfl := he
      · exact .inl hc
      · exact hms e he
      · exact .inl hd
    · rw [← List.cons_append, List.getLast?_concat]
      exact fun h => ne_dash hd (Option.some.inj h)

theorem mem_language_label {cs : List Char} : cs ∈ label.language ↔ IsLabel cs := by
  rw [label, language_seq]
  simp only [List.map_cons, List.map_nil, List.prod_cons, List.prod_nil, mul_one, language_optional,
    language_seq]
  constructor
  · rintro ⟨_, ⟨c, hc, rfl⟩, ds, hds | ⟨ms, hms, _, ⟨d, hd, rfl⟩, rfl⟩, rfl⟩
    · obtain rfl : ds = [] := hds
      exact isLabel_singleton.2 ((has_asciiAlphanumeric c).symm.trans hc)
    · obtain ⟨-, hlength, hms⟩ := mem_language_between_one.1 hms
      exact isLabel_ends.2 ⟨(has_asciiAlphanumeric c).symm.trans hc,
        (has_asciiAlphanumeric d).symm.trans hd, hlength,
        fun m hm => (has_nameChar m).1 (hms m hm)⟩
  · intro h
    cases cs with
    | nil => exact absurd h.nonempty (by decide)
    | cons c ds =>
      obtain rfl | ⟨ms, d, rfl⟩ := List.eq_nil_or_concat ds
      · rw [isLabel_singleton, ← has_asciiAlphanumeric] at h
        exact ⟨[c], ⟨c, h, rfl⟩, [], .inl rfl, rfl⟩
      · rw [List.concat_eq_append, isLabel_ends, ← has_asciiAlphanumeric,
          ← has_asciiAlphanumeric] at h
        obtain ⟨hc, hd, hlength, hms⟩ := h
        refine ⟨[c], ⟨c, hc, rfl⟩, ms ++ [d], .inr ⟨ms, ?_, [d], ⟨d, hd, rfl⟩, rfl⟩, ?_⟩
        · exact mem_language_between_one.2
            ⟨Nat.zero_le _, hlength, fun m hm => (has_nameChar m).2 (hms m hm)⟩
        · rw [List.concat_eq_append]
          rfl

theorem not_mem_of_isLabel {cs : List Char} (h : IsLabel cs) : '.' ∉ cs := by
  intro hdot
  obtain hc | hc := h.chars '.' hdot <;> cases hc

/-! ## Hostnames -/

/-- Without one dot at the end. -/
def dropDot (cs : List Char) : List Char := if cs.getLast? = some '.' then cs.dropLast else cs

/-- Up to 255 bytes: labels with dots between them, and maybe a dot at the end. -/
structure IsHostname (s : String) : Prop where
  nonempty : 1 ≤ s.utf8ByteSize
  size_le : s.utf8ByteSize ≤ 255
  labels : ∀ l ∈ (dropDot s.toList).splitOn '.', IsLabel l

instance (s : String) : Decidable (IsHostname s) :=
  decidable_of_iff (1 ≤ s.utf8ByteSize ∧ s.utf8ByteSize ≤ 255 ∧
      ∀ l ∈ (dropDot s.toList).splitOn '.', IsLabel l)
    ⟨fun h => ⟨h.1, h.2.1, h.2.2⟩, fun h => ⟨h.nonempty, h.size_le, h.labels⟩⟩

theorem mem_language_dot_label {cs : List Char} :
    cs ∈ (seq [char '.', label]).language ↔ ∃ l, IsLabel l ∧ cs = '.' :: l := by
  rw [language_seq]
  simp only [List.map_cons, List.map_nil, List.prod_cons, List.prod_nil, mul_one, language_char]
  constructor
  · rintro ⟨_, rfl, l, hl, rfl⟩
    exact ⟨l, mem_language_label.1 hl, rfl⟩
  · rintro ⟨l, hl, rfl⟩
    exact ⟨['.'], rfl, l, mem_language_label.2 hl, rfl⟩

/-- Labels, each after a dot. -/
theorem mem_language_dotLabels {cs : List Char} :
    cs ∈ (many (seq [char '.', label])).language ↔
      ∃ ls : List (List Char), (∀ l ∈ ls, IsLabel l) ∧ cs = ls.flatMap ('.' :: ·) := by
  rw [language_many]
  constructor
  · rintro ⟨ys, rfl, hys⟩
    induction ys with
    | nil => exact ⟨[], by simp, rfl⟩
    | cons y ys ih =>
      obtain ⟨hy, hrest⟩ := List.forall_mem_cons.1 hys
      obtain ⟨ls, hls, heq⟩ := ih hrest
      obtain ⟨l, hl, rfl⟩ := mem_language_dot_label.1 hy
      exact ⟨l :: ls, List.forall_mem_cons.2 ⟨hl, hls⟩, by simp [heq]⟩
  · rintro ⟨ls, hls, rfl⟩
    refine ⟨ls.map ('.' :: ·), List.flatMap_def, ?_⟩
    intro y hy
    obtain ⟨l, hl, rfl⟩ := List.mem_map.1 hy
    exact mem_language_dot_label.2 ⟨l, hls l hl, rfl⟩

theorem intercalate_cons_eq {c : Char} (l : List Char) (ls : List (List Char)) :
    [c].intercalate (l :: ls) = l ++ ls.flatMap (c :: ·) := by
  induction ls generalizing l with
  | nil => simp
  | cons l' ls ih => rw [List.intercalate_cons_cons, ih, List.flatMap_cons]; simp

/-- **Labels with dots between them** are the pieces of a text. -/
theorem mem_language_dotted {cs : List Char} :
    cs ∈ label.language * (many (seq [char '.', label])).language ↔
      ∀ l ∈ cs.splitOn '.', IsLabel l := by
  constructor
  · rintro ⟨l, hl, _, hrest, rfl⟩
    obtain ⟨ls, hls, rfl⟩ := mem_language_dotLabels.1 hrest
    have hall : ∀ k ∈ l :: ls, IsLabel k := List.forall_mem_cons.2 ⟨mem_language_label.1 hl, hls⟩
    have hdots : ∀ k ∈ l :: ls, '.' ∉ k := fun k hk => not_mem_of_isLabel (hall k hk)
    have hsplit := List.splitOn_intercalate '.' hdots (List.cons_ne_nil l ls)
    rw [intercalate_cons_eq] at hsplit
    exact hsplit.symm ▸ hall
  · intro h
    obtain ⟨l, ls, hsplit⟩ := List.exists_cons_of_ne_nil (List.splitOn_ne_nil '.' cs)
    have hcs : ['.'].intercalate (cs.splitOn '.') = cs := List.intercalate_splitOn '.'
    rw [hsplit, intercalate_cons_eq] at hcs
    rw [hsplit, List.forall_mem_cons] at h
    exact ⟨l, mem_language_label.2 h.1, _, mem_language_dotLabels.2 ⟨ls, h.2, rfl⟩, hcs⟩

theorem dropDot_concat (cs : List Char) : dropDot (cs ++ ['.']) = cs := by simp [dropDot]

/-- Labels with dots between them do not end with a dot. -/
theorem dropDot_of_labels {cs : List Char} (h : ∀ l ∈ cs.splitOn '.', IsLabel l) :
    dropDot cs = cs := by
  refine if_neg fun hlast => ?_
  obtain ⟨ns, rfl⟩ := List.getLast?_eq_some_iff.1 hlast
  rw [List.splitOn_append_cons_self] at h
  -- the piece after the last dot would be empty
  have hempty := h [] (by simp)
  exact absurd hempty.nonempty (by decide)

theorem mem_language_labels {cs : List Char} :
    cs ∈ (seq [label, many (seq [char '.', label]), optional (char '.')]).language ↔
      ∀ l ∈ (dropDot cs).splitOn '.', IsLabel l := by
  rw [language_seq]
  simp only [List.map_cons, List.map_nil, List.prod_cons, List.prod_nil, mul_one, ← mul_assoc,
    language_optional, language_char]
  constructor
  · intro h
    obtain ⟨ns, hns, _, rfl | rfl, rfl⟩ := Language.mem_mul.1 h
    · have hlabels := mem_language_dotted.1 hns
      rwa [List.append_nil, dropDot_of_labels hlabels]
    · rw [dropDot_concat]
      exact mem_language_dotted.1 hns
  · intro h
    by_cases hlast : cs.getLast? = some '.'
    · obtain ⟨ns, rfl⟩ := List.getLast?_eq_some_iff.1 hlast
      rw [dropDot_concat] at h
      exact ⟨ns, mem_language_dotted.2 h, ['.'], .inr rfl, rfl⟩
    · rw [dropDot, if_neg hlast] at h
      exact ⟨cs, mem_language_dotted.2 h, [], .inl rfl, List.append_nil cs⟩

theorem isHostname_iff {s : String} : isHostname s = true ↔ IsHostname s := by
  have hbounds : labels.wellBounded = true := by decide
  have hregular : (seq [label, many (seq [char '.', label]), optional (char '.')]).regular =
      true := by decide
  rw [isHostname, Bool.and_eq_true, decide_eq_true_eq, labels,
    occursIn_whole_iff hbounds hregular, mem_language_labels]
  constructor
  · rintro ⟨⟨hnonempty, hsize⟩, hlabels⟩
    exact ⟨hnonempty, hsize, hlabels⟩
  · intro h
    exact ⟨⟨h.nonempty, h.size_le⟩, h.labels⟩

/-- **The format for hostnames** accepts hostnames and nothing else. -/
theorem builtin?_hostname :
    ∃ test, builtin? "hostname" = some test ∧ ∀ s, test s = true ↔ IsHostname s :=
  ⟨isHostname, rfl, fun _ => isHostname_iff⟩

example : IsHostname "a-1.b." ∧ ¬IsHostname "a..b" ∧ ¬IsHostname "a-.b" := by decide

end JsonSchema.Format
