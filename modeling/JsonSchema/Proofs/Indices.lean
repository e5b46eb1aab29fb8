import JsonSchema.Proofs.Pointers
import Mathlib.Data.List.Induction

/-!
# Tokens of indices

The token of an index is its decimal text. Digits that do not start with a zero are the text of the
number that they write, digit by digit from the last one on, so no other token denotes the index.
Escapes stand for no digit, so a token with escapes denotes none.

* `natText_digitsValue`: digits are the decimal text of the number that they write;
* `Pointer.indexChars?_eq_some_iff`: the tokens that denote an index;
* `Pointer.index?_canonical`: each index has one token, and tokens do not wrap around.
-/

namespace JsonSchema

/-! ## Digits and numbers -/

theorem digitValue_lt {c : Char} (h : c.isDigit = true) : digitValue c < 10 := by
  have hnine : c.toNat ≤ 57 := (Char.isDigit_iff_toNat.1 h).2
  rw [digitValue]
  omega

theorem digitChar_digitValue {c : Char} (h : c.isDigit = true) : (digitValue c).digitChar = c := by
  have hzero : 48 ≤ c.toNat := (Char.isDigit_iff_toNat.1 h).1
  rw [← Char.toNat_inj, Nat.toNat_digitChar_of_lt_ten (digitValue_lt h), digitValue]
  omega

theorem natText_digit {c : Char} (h : c.isDigit = true) : natText (digitValue c) = [c] := by
  rw [natText, Nat.toDigits_of_lt_base (digitValue_lt h), digitChar_digitValue h]

/-- A digit behind a positive number. -/
theorem natText_append {n : Nat} {c : Char} (hn : n ≠ 0) (h : c.isDigit = true) :
    natText (10 * n + digitValue c) = natText n ++ [c] := by
  have hdigit := digitValue_lt h
  have hdiv : (10 * n + digitValue c) / 10 = n := by omega
  have hmod : (10 * n + digitValue c) % 10 = digitValue c := by omega
  rw [natText, Nat.toDigits_of_base_le (by decide) (by omega), hdiv, hmod,
    digitChar_digitValue h, natText]

/-- **Digits** that do not start with a zero are the decimal text of the number that they write. -/
theorem natText_digitsValue {ds : List Char} (hne : ds ≠ []) (hds : ∀ c ∈ ds, c.isDigit = true)
    (hzero : ds.head? ≠ some '0') : natText (digitsValue ds) = ds := by
  induction ds using List.reverseRecOn with
  | nil => exact absurd rfl hne
  | append_singleton ds c ih =>
    have hc : c.isDigit = true := hds c (by simp)
    rw [digitsValue_append]
    by_cases hnil : ds = []
    · subst hnil
      simpa [digitsValue] using natText_digit hc
    · have hhead : (ds ++ [c]).head? = ds.head? := List.head?_append_of_ne_nil _ hnil
      have htext := ih hnil (fun d hd => hds d (List.mem_append_left _ hd)) (hhead ▸ hzero)
      have hpos : digitsValue ds ≠ 0 := by
        intro h
        rw [h] at htext
        rw [hhead, ← htext] at hzero
        exact hzero rfl
      rw [natText_append hpos hc, htext]

namespace Pointer

/-! ## Tokens -/

theorem isDigit_of_le {c : Char} (hone : '1' ≤ c) (hnine : c ≤ '9') : c.isDigit = true := by
  have hone : '1'.toNat ≤ c.toNat := hone
  exact Char.isDigit_iff_toNat.2 ⟨Nat.le_trans (by decide) hone, hnine⟩

/-- **The token of an index** is its decimal text, and no other. -/
theorem indexChars?_eq_some_iff {cs : List Char} {n : Nat} :
    indexChars? cs = some n ↔ n < UInt64.size ∧ cs = natText n := by
  constructor
  · intro h
    unfold indexChars? at h
    split at h
    · cases h
      exact ⟨by decide, rfl⟩
    · next c cs hne =>
      split at h
      · next hc =>
        cases h
        obtain ⟨hone, hnine, hall, hsize⟩ := hc
        have hdigits : ∀ d ∈ c :: cs, d.isDigit = true :=
          List.forall_mem_cons.2 ⟨isDigit_of_le hone hnine, List.all_eq_true.1 hall⟩
        have hzero : (c :: cs).head? ≠ some '0' := by
          rintro ⟨⟩
          exact absurd hone (by decide)
        exact ⟨hsize, (natText_digitsValue (List.cons_ne_nil c cs) hdigits hzero).symm⟩
      · cases h
    · cases h
  · rintro ⟨hn, rfl⟩
    exact indexChars?_natText hn

theorem toList_toString (n : Nat) : (toString n).toList = natText n := String.toList_ofList

theorem index?_eq_some_iff {s : String} {n : Nat} :
    index? s = some n ↔ n < UInt64.size ∧ s = toString n := by
  rw [index?, indexChars?_eq_some_iff, ← String.toList_inj, toList_toString]

/-- A number that is too large is not taken modulo `2^64`. -/
theorem index?_eq_none_of_le {s : String} (h : UInt64.size ≤ digitsValue s.toList) :
    index? s = none := by
  rw [← Option.not_isSome_iff_eq_none, Option.isSome_iff_exists]
  rintro ⟨n, hn⟩
  obtain ⟨hsize, hs⟩ := indexChars?_eq_some_iff.1 hn
  rw [hs, digitsValue_natText] at h
  omega

/-- Escapes do not help to write an index. -/
theorem index?_unescape {s : String} {n : Nat} (h : index? (unescape s) = some n) :
    unescape s = s := by
  rw [index?, unescape, String.toList_ofList, indexChars?_eq_some_iff] at h
  have htilde : '~' ∉ natText n := not_mem_natText (by decide)
  have hslash : '/' ∉ natText n := not_mem_natText (by decide)
  have hs := eq_of_unescapeChars h.2 htilde hslash
  rw [unescape, h.2, ← hs, String.ofList_toList]

theorem index?_unescape_eq_some_iff {s : String} {n : Nat} :
    index? (unescape s) = some n ↔ n < UInt64.size ∧ s = toString n := by
  rw [← index?_eq_some_iff]
  constructor
  · intro h
    rwa [index?_unescape h] at h
  · intro h
    have hs := (index?_eq_some_iff.1 h).2
    have htilde : '~' ∉ s.toList := by
      rw [hs, toList_toString]
      exact not_mem_natText (by decide)
    rwa [unescape, unescapeChars_eq_self htilde, String.ofList_toList]

/-- **Tokens of indices** are canonical: an index below `2^64` is denoted by its decimal text only.
So each item of an array is reached by one token, whatever escapes a token may have, no two tokens
denote the same index, and a number of `2^64` or more denotes none. -/
theorem index?_canonical :
    (∀ (s : String) (n : Nat), index? s = some n ↔ n < UInt64.size ∧ s = toString n) ∧
    (∀ (xs : List Json) (n : Nat) (hn : n < xs.length), n < UInt64.size →
      (∃! s : String, index? (unescape s) = some n) ∧
        ∀ s : String, index? (unescape s) = some n →
          (Json.array xs).follow? [s.toList] = some xs[n]) ∧
    (∀ (s t : String) (n : Nat), index? s = some n → index? t = some n → s = t) ∧
    ∀ s : String, UInt64.size ≤ digitsValue s.toList → index? s = none := by
  refine ⟨fun _ _ => index?_eq_some_iff, fun xs n hn hsize => ⟨?_, fun s hs => ?_⟩, ?_,
    fun _ => index?_eq_none_of_le⟩
  · exact ⟨toString n, index?_unescape_eq_some_iff.2 ⟨hsize, rfl⟩,
      fun s hs => (index?_unescape_eq_some_iff.1 hs).2⟩
  · rw [index?, unescape, String.toList_ofList] at hs
    simp [Json.follow?, Json.select?, hs, hn]
  · intro s t n hs ht
    rw [(index?_eq_some_iff.1 hs).2, (index?_eq_some_iff.1 ht).2]

/-- The largest index, the number after it, and the second item of an array. -/
theorem index?_canonical_largest :
    index? "18446744073709551615" = some 18446744073709551615 ∧
      (∀ t : String, index? t = some 18446744073709551615 → t = "18446744073709551615") ∧
      index? "18446744073709551616" = none ∧
      (∃! s : String, index? (unescape s) = some 1) ∧
      (Json.array [.null, .bool true]).follow? [['1']] = some (.bool true) := by
  obtain ⟨htext, hitem, honly, hlarge⟩ := index?_canonical
  have hlargest : index? "18446744073709551615" = some 18446744073709551615 :=
    (htext _ _).2 ⟨by decide, by decide⟩
  obtain ⟨hunique, hfollow⟩ := hitem [.null, .bool true] 1 (by decide) (by decide)
  exact ⟨hlargest, fun t ht => honly t _ _ ht hlargest, hlarge _ (by decide), hunique,
    hfollow "1" (by decide)⟩

end Pointer

end JsonSchema
