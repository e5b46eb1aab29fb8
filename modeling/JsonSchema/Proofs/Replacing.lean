import JsonSchema.Proofs.Pointers

/-!
# Undoing escapes by replacing

Escapes are undone from left to right in one pass. That is the same as two replacements, first
`~1` by a slash everywhere and then `~0` by a tilde: what the first one writes never completes an
escape for the second one. A replacement is a search whose matches and the parts between them are
put together again, and no match starts in such a part.

* `replaceAll`: replacing in lists of characters;
* `toList_replace`: replacing in a string, character by character;
* `Pointer.unescapeChars_eq_replaceAll`: one pass is two replacements.
-/

namespace JsonSchema

open String.Slice.Pattern (SearchStep ToForwardSearcher)
open String.Slice.Pattern.Model

/-! ## Replacing -/

/-- A text in which `new` stands for each `old`, which are looked for from left to right and do not
overlap. -/
def replaceAll (old new : List Char) : List Char → List Char
  | [] => []
  | c :: cs =>
    if old ≠ [] ∧ old <+: c :: cs then new ++ replaceAll old new (cs.drop (old.length - 1))
    else c :: replaceAll old new cs
termination_by cs => cs.length
decreasing_by
  · simp only [List.length_drop, List.length_cons]
    omega
  · simp

section

variable {old new : List Char}

theorem replaceAll_append (h : old ≠ []) (cs : List Char) :
    replaceAll old new (old ++ cs) = new ++ replaceAll old new cs := by
  cases old with
  | nil => exact absurd rfl h
  | cons o old =>
    rw [List.cons_append, replaceAll, if_pos ⟨h, List.prefix_append (o :: old) cs⟩]
    simp

theorem replaceAll_cons {c : Char} {cs : List Char} (h : ¬old <+: c :: cs) :
    replaceAll old new (c :: cs) = c :: replaceAll old new cs := by
  rw [replaceAll, if_neg fun hold => h hold.2]

theorem replaceAll_append_of_absent {mid cs : List Char}
    (h : ∀ t u, t ++ u = mid → u ≠ [] → ¬old <+: u ++ cs) :
    replaceAll old new (mid ++ cs) = mid ++ replaceAll old new cs := by
  induction mid with
  | nil => rfl
  | cons c mid ih =>
    have hmid := ih fun t u htu hu => h (c :: t) u (congrArg (c :: ·) htu) hu
    have hc : ¬old <+: c :: (mid ++ cs) := h [] (c :: mid) rfl (List.cons_ne_nil c mid)
    rw [List.cons_append, replaceAll_cons hc, hmid, List.cons_append]

end

section

variable {s : String.Slice} {old t u : String} {p q : s.Pos}

/-- What a search rejects of a text is left as it is. -/
theorem toList_rejected (new : String) (hp : p.Splits t u) (hlt : p < q)
    (hno : ∀ r, p ≤ r → r < q → ¬MatchesAt old r) :
    ∃ rest, q.Splits (t ++ (s.slice! p q).copy) rest ∧
      replaceAll old.toList new.toList u.toList =
        (s.slice! p q).copy.toList ++ replaceAll old.toList new.toList rest.toList := by
  obtain ⟨mid, -, hleft, rfl⟩ := (hp.lt_iff_exists_eq_append q.splits).1 hlt
  have hq : q.Splits (t ++ mid) (s.sliceFrom q).copy := hleft ▸ q.splits
  have hmid : (s.slice! p q).copy = mid := by
    rw [← String.Slice.slice_eq_slice! (h := Std.le_of_lt hlt)]
    exact (String.Slice.copy_slice_eq_iff_splits.2 ⟨_, _, hp, hq⟩).2
  rw [hmid]
  refine ⟨_, hq, ?_⟩
  rw [String.toList_append]
  -- a match within the part would start at a position between its ends
  refine replaceAll_append_of_absent fun a b hab hb ⟨cs, hcs⟩ => ?_
  have hmid : mid = String.ofList a ++ String.ofList b := by
    rw [← String.ofList_append, hab, String.ofList_toList]
  have hold : old ++ String.ofList cs = String.ofList b ++ (s.sliceFrom q).copy := by
    simpa [← String.toList_inj] using hcs
  subst hmid
  have hcopy : s.copy = (t ++ String.ofList a) ++ (old ++ String.ofList cs) := by
    rw [hold, hp.eq_append]
    simp only [String.append_assoc]
  have hr := String.Slice.Pos.splits_ofEqAppend hcopy
  refine hno _ ?_ ?_ (ForwardStringSearcher.matchesAt_iff_splits.2 ⟨_, _, hr⟩)
  · exact (hp.le_iff_exists_eq_append hr).2
      ⟨String.ofList a, rfl, by rw [hold, String.append_assoc]⟩
  · refine (hr.lt_iff_exists_eq_append hq).2
      ⟨String.ofList b, ?_, by rw [String.append_assoc], hold⟩
    simpa [← String.toList_inj] using hb

/-- Replacing what a search found: the parts between stay. -/
theorem toList_foldl_steps {new : String} {f : String → SearchStep s → String}
    {l : List (SearchStep s)}
    (hmatched : ∀ sofar p q, f sofar (.matched p q) = sofar ++ new)
    (hrejected : ∀ sofar p q, f sofar (.rejected p q) = sofar ++ (s.slice! p q).copy)
    (hold : old ≠ "") (h : IsValidSearchFrom old p l) (hp : p.Splits t u) (sofar : String) :
    (l.foldl f sofar).toList =
      sofar.toList ++ replaceAll old.toList new.toList u.toList := by
  induction h generalizing t u sofar with
  | endPos =>
    obtain ⟨-, rfl⟩ := String.Slice.splits_endPos_iff.1 hp
    simp [replaceAll]
  | matched hmatch hvalid ih =>
    obtain ⟨t', rest, hstart, hend⟩ := ForwardStringSearcher.isLongestMatchAt_iff_splits.1 hmatch
    have hne : old.toList ≠ [] := mt String.toList_eq_nil_iff.1 hold
    rw [List.foldl_cons, hmatched, ih hend, hp.eq_right hstart, String.toList_append,
      String.toList_append, replaceAll_append hne, List.append_assoc]
  | mismatched hlt hno hvalid ih =>
    obtain ⟨rest, hq, hreplace⟩ := toList_rejected new hp hlt hno
    rw [List.foldl_cons, hrejected, ih hq, hreplace, String.toList_append, List.append_assoc]

end

/-- **Replacing** character by character. -/
theorem toList_replace {old : String} (hold : old ≠ "") (s new : String) :
    (s.replace old new).toList = replaceAll old.toList new.toList s.toList := by
  have hlawful := ForwardStringSearcher.lawfulToForwardSearcherModel hold
  have h := hlawful.isValidSearchFrom_toList s.toSlice
  rw [String.replace, String.Slice.replace, ← Std.Iter.foldl_toList,
    toList_foldl_steps (fun sofar _ _ => congrArg (sofar ++ ·) String.copy_toSlice)
      (fun _ _ _ => by simp) hold h s.toSlice.splits_startPos]
  simp

/-! ## Two replacements -/

namespace Pointer

/-- Replacing `~1` by a slash does not put a zero in front. -/
theorem head?_replaceAll {cs : List Char}
    (h : (replaceAll ['~', '1'] ['/'] cs).head? = some '0') : cs.head? = some '0' := by
  cases cs with
  | nil => simp [replaceAll] at h
  | cons c cs =>
    rw [replaceAll] at h
    split at h
    · cases h
    · exact h

/-- Undoing the escapes from left to right is the same as replacing `~1` everywhere and `~0`
after that. -/
theorem unescapeChars_eq_replaceAll (cs : List Char) :
    unescapeChars cs = replaceAll ['~', '0'] ['~'] (replaceAll ['~', '1'] ['/'] cs) := by
  fun_induction unescapeChars cs with
  | case1 cs ih =>
    have hinner : replaceAll ['~', '1'] ['/'] ('~' :: '1' :: cs) =
        '/' :: replaceAll ['~', '1'] ['/'] cs := replaceAll_append (List.cons_ne_nil _ _) cs
    rw [hinner, replaceAll_cons (by simp), ih]
  | case2 cs ih =>
    have hinner : replaceAll ['~', '1'] ['/'] ('~' :: '0' :: cs) =
        ['~', '0'] ++ replaceAll ['~', '1'] ['/'] cs := by
      rw [replaceAll_cons (by simp), replaceAll_cons (by simp)]
      rfl
    rw [hinner, replaceAll_append (List.cons_ne_nil _ _), ih]
    rfl
  | case3 c cs hone hzero ih =>
    have hinner : ¬['~', '1'] <+: c :: cs := by
      rintro ⟨ds, hds⟩
      obtain ⟨rfl, rfl⟩ := List.cons.inj hds
      exact hone ds rfl rfl
    have houter : ¬['~', '0'] <+: c :: replaceAll ['~', '1'] ['/'] cs := by
      rintro ⟨ds, hds⟩
      obtain ⟨rfl, htail⟩ := List.cons.inj hds
      have hhead : cs.head? = some '0' := head?_replaceAll (by rw [← htail]; rfl)
      obtain ⟨es, rfl⟩ := List.head?_eq_some_iff.1 hhead
      exact hzero es rfl rfl
    rw [replaceAll_cons hinner, replaceAll_cons houter, ih]
  | case4 => simp [replaceAll]

theorem unescape_eq_replace (s : String) :
    unescape s = (s.replace "~1" "/").replace "~0" "~" := by
  rw [← String.toList_inj, unescape, String.toList_ofList, unescapeChars_eq_replaceAll,
    toList_replace (by decide), toList_replace (by decide)]
  rfl

end Pointer

end JsonSchema
