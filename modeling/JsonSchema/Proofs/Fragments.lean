import JsonSchema.Proofs.Keys

/-!
# Fragments of external documents

A reference `key#fragment` leads into the external document of the key. If the fragment is empty or
starts with a slash, one would like it to mean there what `#fragment` means in a document that
refers to itself. But the two are read in different ways. Only a reference into its own document has
its percent escapes decoded. And one slash at the end of an external reference is dropped before it
is cut at the number sign, and then one more at the end of its fragment.

* `percentDecode?_eq_some`, `percentBytes_append`: escapes are decoded in front of a number sign as
  they would be alone;
* `IsKey.not_isPointer_append`: a key with a fragment is never taken for a pointer;
* `resolve?_fragment`, `resolve?_external`: what a fragment denotes, in the two ways;
* `fragment_resolves`: where the two agree;
* `fragment_of_two_readings`: where they do not.
-/

namespace JsonSchema

/-! ## Percent escapes -/

theorem percentBytes_cons_of_ne {c : Char} (h : c ≠ '%') (cs : List Char) :
    percentBytes (c :: cs) = (String.singleton c).toUTF8.toList ++ percentBytes cs := by
  rw [percentBytes]
  rintro a b cs rfl
  exact absurd rfl h

/-- A number sign is no part of an escape, so what stands before it is decoded by itself. -/
theorem percentBytes_append (cs ds : List Char) :
    percentBytes (cs ++ '#' :: ds) = percentBytes cs ++ percentBytes ('#' :: ds) := by
  have hsign : hexValue? '#' = none := by decide
  fun_induction percentBytes cs with
  | case1 a b cs x y hx hy ih => simp [percentBytes, hx, hy, ih]
  | case2 a b cs hnone ih =>
    rw [List.cons_append, List.cons_append, List.cons_append, percentBytes]
    split
    · next x y hx hy => exact absurd hy (hnone x y hx)
    · rw [← List.cons_append, ← List.cons_append, ih, List.append_assoc]
  | case3 c cs hshort ih =>
    by_cases hc : c = '%'
    · -- too few characters are left for an escape
      subst hc
      match cs with
      | [] => cases ds <;> simp [percentBytes, hsign]
      | [a] =>
        have hstep : percentBytes ('%' :: a :: '#' :: ds) =
            (String.singleton '%').toUTF8.toList ++ percentBytes (a :: '#' :: ds) := by
          rw [percentBytes, hsign]
          cases hexValue? a <;> rfl
        rw [List.append_assoc, ← ih]
        exact hstep
      | a :: b :: cs => exact absurd rfl (hshort a b cs rfl)
    · rw [List.cons_append, percentBytes_cons_of_ne hc, ih, List.append_assoc]
  | case4 => rfl

/-- The decoded text is the one whose bytes stand behind the escapes. -/
theorem percentDecode?_eq_some {cs ds : List Char} :
    percentDecode? cs = some ds ↔ (⟨(percentBytes cs).toArray⟩ : ByteArray) = ds.utf8Encode := by
  rw [percentDecode?, String.fromUTF8?]
  constructor
  · intro h
    split at h
    · next hvalid =>
      obtain rfl := Option.some.inj h
      rw [String.utf8Encode_toList]
      rfl
    · cases h
  · intro h
    rw [h, dif_pos ByteArray.isValidUTF8_utf8Encode]
    exact congrArg some String.toList_ofList

theorem toList_loop_eq (b : ByteArray) (i : Nat) (r : List UInt8) :
    ByteArray.toList.loop b i r = r.reverse ++ b.data.toList.drop i := by
  fun_induction ByteArray.toList.loop b i r with
  | case1 i r hi ih =>
    have hlength : i < b.data.toList.length := by
      rw [Array.length_toList]
      exact hi
    have hget : b.get! i = b.data.toList[i] := by
      have hi' : i < b.data.size := hi
      rw [Array.getElem_toList]
      exact getElem!_pos b.data i hi'
    rw [ih, List.drop_eq_getElem_cons hlength, hget, List.reverse_cons, List.append_assoc,
      List.singleton_append]
  | case2 i r hi =>
    have hlength : b.data.toList.length ≤ i := by
      rw [Array.length_toList]
      exact Nat.le_of_not_lt hi
    rw [List.drop_eq_nil_of_le hlength, List.append_nil]

theorem byteArray_toList (b : ByteArray) : b.toList = b.data.toList := toList_loop_eq b 0 []

/-- Bytes that begin as those of a text do decode to its first character. -/
theorem head?_of_utf8Encode_append {c : Char} {cs ds : List Char} {b : ByteArray}
    (h : (c :: cs).utf8Encode ++ b = ds.utf8Encode) : ds.head? = some c := by
  have hfirst : ByteArray.utf8DecodeChar? ds.utf8Encode 0 = some c := by
    rw [← h]
    exact ByteArray.utf8DecodeChar?_append_eq_some List.utf8DecodeChar?_utf8Encode_cons b
  cases ds with
  | nil =>
    rw [List.utf8Encode_nil, ByteArray.append_eq_empty_iff, List.utf8Encode_eq_empty] at h
    exact absurd h.1 (List.cons_ne_nil _ _)
  | cons d ds =>
    rw [List.utf8DecodeChar?_utf8Encode_cons] at hfirst
    exact hfirst

/-- The first character behind the escapes is that of the part in front of a number sign. -/
theorem head?_of_percentDecode? {cs ds es rest : List Char} {c : Char}
    (h : percentDecode? cs = some (c :: ds)) (h' : percentDecode? (cs ++ '#' :: rest) = some es) :
    es.head? = some c := by
  rw [percentDecode?_eq_some] at h h'
  have hbytes : (c :: ds).utf8Encode ++ ⟨(percentBytes ('#' :: rest)).toArray⟩ = es.utf8Encode := by
    rw [← h, ← h', percentBytes_append]
    simp [ByteArray.ext_iff]
  exact head?_of_utf8Encode_append hbytes

/-- A first character that starts no escape stays the first one. -/
theorem head?_of_percentDecode?_cons {k : Char} {ks ds : List Char} (hk : k ≠ '%')
    (h : percentDecode? (k :: ks) = some ds) : ds.head? = some k := by
  rw [percentDecode?_eq_some, percentBytes_cons_of_ne hk] at h
  have hbytes : [k].utf8Encode ++ ⟨(percentBytes ks).toArray⟩ = ds.utf8Encode := by
    rw [← h, byteArray_toList]
    simp [ByteArray.ext_iff]
  exact head?_of_utf8Encode_append hbytes

/-- Bytes in front of a number sign of a text are those of a text. -/
theorem isValidUTF8_of_append {a b : ByteArray} (h : (a ++ (['#'].utf8Encode ++ b)).IsValidUTF8) :
    a.IsValidUTF8 := by
  let s : String := ⟨_, h⟩
  have hbytes : s.toByteArray = a ++ (['#'].utf8Encode ++ b) := rfl
  have hsize : (a ++ (['#'].utf8Encode ++ b)).size = a.size + (1 + b.size) := by
    rw [ByteArray.size_append, ByteArray.size_append]
    rfl
  have hlt : a.size < s.utf8ByteSize := by
    rw [← String.size_toByteArray, hbytes]
    omega
  -- the byte of the number sign starts a character
  have hsign : s.getUTF8Byte ⟨a.size⟩ hlt = 35 := by
    show (a ++ (['#'].utf8Encode ++ b))[a.size] = 35
    rw [ByteArray.getElem_append_right (Nat.le_refl _)]
    simp only [Nat.sub_self]
    rw [ByteArray.getElem_append_left (by decide)]
    decide
  have hvalid : (⟨a.size⟩ : String.Pos.Raw).IsValid s :=
    String.Pos.Raw.isValid_iff_isUTF8FirstByte.2 (.inr ⟨hlt, by rw [hsign]; decide⟩)
  have hfront := hvalid.isValidUTF8_extract_zero
  rw [hbytes, ByteArray.extract_append_eq_left rfl] at hfront
  exact hfront

/-- A part in front of a number sign can be decoded if the whole text can. -/
theorem exists_percentDecode?_of_append {cs ds es : List Char}
    (h : percentDecode? (cs ++ '#' :: ds) = some es) : ∃ fs, percentDecode? cs = some fs := by
  rw [percentDecode?_eq_some, percentBytes_append, percentBytes_cons_of_ne (by decide)] at h
  have hvalid : (⟨(percentBytes cs).toArray⟩ : ByteArray).IsValidUTF8 := by
    refine isValidUTF8_of_append (b := ⟨(percentBytes ds).toArray⟩) ?_
    have hbytes : (⟨(percentBytes cs).toArray⟩ : ByteArray) ++
        (['#'].utf8Encode ++ ⟨(percentBytes ds).toArray⟩) = es.utf8Encode := by
      rw [← h, byteArray_toList, show (String.singleton '#').toUTF8 = ['#'].utf8Encode from rfl]
      simp [ByteArray.ext_iff]
    rw [hbytes]
    exact ByteArray.isValidUTF8_utf8Encode
  obtain ⟨fs, hfs⟩ := hvalid
  exact ⟨fs, percentDecode?_eq_some.2 hfs⟩

/-- The text behind the percent escapes of a text, which is the text itself if the bytes behind them
are those of no text. -/
def percentDecoded (cs : List Char) : List Char := (percentDecode? cs).getD cs

theorem percentDecoded_nil : percentDecoded [] = [] := by
  decide +kernel

theorem head?_percentDecoded_cons {k : Char} (hk : k ≠ '%') (ks : List Char) :
    (percentDecoded (k :: ks)).head? = some k := by
  rw [percentDecoded]
  cases h : percentDecode? (k :: ks) with
  | none => rfl
  | some ds => exact head?_of_percentDecode?_cons hk h

/-! ## Keys in front of a fragment -/

theorem Pointer.isPointer_eq_false {cs : List Char} {c : Char} (h : cs.head? = some c)
    (hslash : c ≠ '/') (hsign : c ≠ '#') : isPointer cs = false := by
  obtain ⟨ds, rfl⟩ := List.head?_eq_some_iff.1 h
  rw [isPointer, dropSign_eq_self (by simpa using hsign)]
  exact beq_eq_false_iff_ne.2 hslash

/-- The first character of a key as it is written. -/
theorem IsKey.exists_head {key : String} (h : IsKey key) :
    ∃ k, key.toList.head? = some k ∧ k ≠ '/' ∧ k ≠ '#' := by
  obtain ⟨-, c, cs, hcs, hslash, hsign⟩ := h
  rw [← percentDecoded] at hcs
  cases hkey : key.toList with
  | nil =>
    rw [hkey, percentDecoded_nil] at hcs
    cases hcs
  | cons k ks =>
    by_cases hk : k = '%'
    · subst hk
      exact ⟨'%', rfl, by decide⟩
    · have hhead := head?_percentDecoded_cons hk ks
      rw [← hkey, hcs] at hhead
      obtain rfl := Option.some.inj hhead
      exact ⟨c, rfl, hslash, hsign⟩

theorem head?_append_fragment {key : List Char} {k : Char} (h : key.head? = some k)
    (fragment : List Char) : (key ++ '#' :: fragment).head? = some k := by
  rw [List.head?_append, h, Option.some_or]

/-- A key stays no pointer when a number sign and a fragment are written after it. -/
theorem IsKey.not_isPointer_append {key : String} (h : IsKey key) (fragment : List Char) :
    Pointer.isPointer (percentDecoded (key.toList ++ '#' :: fragment)) = false := by
  rw [percentDecoded]
  cases hwhole : percentDecode? (key.toList ++ '#' :: fragment) with
  | some es =>
    obtain ⟨-, c, cs, hcs, hslash, hsign⟩ := h
    obtain ⟨ds, hds⟩ := exists_percentDecode?_of_append hwhole
    rw [hds, Option.getD_some] at hcs
    subst hcs
    exact Pointer.isPointer_eq_false (head?_of_percentDecode? hds hwhole) hslash hsign
  | none =>
    obtain ⟨k, hk, hslash, hsign⟩ := h.exists_head
    exact Pointer.isPointer_eq_false (head?_append_fragment hk fragment) hslash hsign

/-! ## The document of the reference itself -/

namespace Pointer

/-- Empty or with a slash in front. -/
def IsFragment (cs : List Char) : Prop := cs = [] ∨ cs.head? = some '/'

instance decidableIsFragment (cs : List Char) : Decidable (IsFragment cs) :=
  inferInstanceAs (Decidable (_ ∨ _))

theorem IsFragment.dropSign {cs : List Char} (h : IsFragment cs) : Pointer.dropSign cs = cs := by
  rcases h with rfl | h
  · rfl
  · exact dropSign_eq_self (by simp [h])

theorem IsFragment.isPointer {cs : List Char} (h : IsFragment cs) : isPointer cs = true := by
  rw [Pointer.isPointer, h.dropSign]
  rcases h with rfl | h
  · rfl
  · obtain ⟨ds, rfl⟩ := List.head?_eq_some_iff.1 h
    rfl

theorem IsFragment.dropSlash {cs : List Char} (h : IsFragment cs) :
    IsFragment (Pointer.dropSlash cs) := by
  rw [Pointer.dropSlash]
  split
  · rcases h with rfl | h
    · exact .inl rfl
    · obtain ⟨ds, rfl⟩ := List.head?_eq_some_iff.1 h
      cases ds with
      | nil => exact .inl rfl
      | cons d ds => exact .inr rfl
  · exact h

theorem IsFragment.percentDecoded {cs : List Char} (h : IsFragment cs) :
    IsFragment (percentDecoded cs) := by
  rcases h with rfl | h
  · exact .inl percentDecoded_nil
  · obtain ⟨ds, rfl⟩ := List.head?_eq_some_iff.1 h
    exact .inr (head?_percentDecoded_cons (by decide) ds)

theorem dropSlash_append_cons {c : Char} (hc : c ≠ '/') (cs ds : List Char) :
    dropSlash (cs ++ c :: ds) = cs ++ c :: dropSlash ds := by
  cases ds with
  | nil => simp [dropSlash, hc]
  | cons d ds =>
    have hlast : (cs ++ c :: d :: ds).getLast? = (d :: ds).getLast? := by
      rw [List.getLast?_append, List.getLast?_cons_cons, List.getLast?_cons, Option.some_or]
    rw [dropSlash, dropSlash, hlast]
    split
    · rw [List.dropLast_append_of_ne_nil (List.cons_ne_nil _ _), List.dropLast_cons_cons]
    · rfl

/-- One more slash is dropped from a text that ends with two of them only. -/
theorem dropSlash_dropSlash {cs : List Char} (h : ¬['/', '/'] <:+ cs) :
    dropSlash (dropSlash cs) = dropSlash cs := by
  by_cases hlast : cs.getLast? = some '/'
  · obtain ⟨ds, rfl⟩ := List.getLast?_eq_some_iff.1 hlast
    have hdrop : dropSlash (ds ++ ['/']) = ds := by
      rw [dropSlash, if_pos hlast, List.dropLast_concat]
    have hne : ds.getLast? ≠ some '/' := by
      intro hds
      obtain ⟨es, rfl⟩ := List.getLast?_eq_some_iff.1 hds
      exact h ⟨es, by simp⟩
    rw [hdrop, dropSlash, if_neg hne]
  · have hdrop : dropSlash cs = cs := by rw [dropSlash, if_neg hlast]
    rw [hdrop, hdrop]

end Pointer

/-- In the document of the reference, a fragment is the pointer behind its percent escapes. -/
theorem resolve?_fragment {document : Json} {fragment : String}
    (hf : Pointer.IsFragment fragment.toList) (hid : ¬document.HoldsId ("#" ++ fragment)) :
    resolve? document [] ("#" ++ fragment) =
      document.pointerChars? (percentDecoded fragment.toList) := by
  have htext : Pointer.dropSign ("#" ++ fragment).toList = fragment.toList := by
    rw [String.toList_append]
    rfl
  rw [resolve?, Json.findId?_eq_none_iff.2 hid]
  simp only [htext]
  rw [← percentDecoded, hf.percentDecoded.isPointer, cond_true]

/-! ## An external document -/

theorem cutFragment_append {key : List Char} (h : '#' ∉ key) (fragment : List Char) :
    cutFragment (key ++ '#' :: fragment) = (key, some fragment) := by
  have hkey : ∀ c ∈ key, (c != '#') = true := fun c hc => bne_iff_ne.2 fun heq => h (heq ▸ hc)
  have hdrop : (key ++ '#' :: fragment).dropWhile (· != '#') = '#' :: fragment := by
    rw [List.dropWhile_append_of_pos hkey]
    rfl
  have htake : (key ++ '#' :: fragment).takeWhile (· != '#') = key := by
    rw [List.takeWhile_append_of_pos hkey]
    exact List.append_nil key
  rw [cutFragment, hdrop, htake]

/-- In an external document, a fragment is the pointer that is written, without one slash at its
end. -/
theorem resolve?_external {root document : Json} {key fragment : String} (hkey : IsKey key)
    (hf : Pointer.IsFragment fragment.toList) (hid : ¬root.HoldsId (key ++ "#" ++ fragment)) :
    resolve? root [(key, document)] (key ++ "#" ++ fragment) =
      document.pointerChars? (Pointer.dropSlash fragment.toList) := by
  have hchars : (key ++ "#" ++ fragment).toList = key.toList ++ '#' :: fragment.toList := by
    rw [String.toList_append, String.toList_append, List.append_assoc]
    rfl
  obtain ⟨k, hk, -, hsign⟩ := hkey.exists_head
  have hhead := head?_append_fragment hk fragment.toList
  have htext : Pointer.dropSign (key ++ "#" ++ fragment).toList =
      key.toList ++ '#' :: fragment.toList := by
    rw [hchars]
    exact Pointer.dropSign_eq_self (by simpa [hhead] using hsign)
  rw [resolve?, Json.findId?_eq_none_iff.2 hid]
  simp only [htext]
  rw [← percentDecoded, hkey.not_isPointer_append, cond_false,
    Pointer.dropSlash_append_cons (by decide), resolveExternal?, cutFragment_append hkey.1]
  simp only [String.ofList_toList, List.lookup_cons_self]
  rw [Option.bind_eq_bind, Option.bind_some, hf.dropSlash.isPointer, cond_true]

/-- **Fragments** lead to the same value in the document of the reference and in an external
document if they have nothing to decode and do not end with two slashes. -/
theorem fragment_resolves {root document : Json} {key fragment : String} (hkey : IsKey key)
    (hf : Pointer.IsFragment fragment.toList)
    (hdocument : ¬document.HoldsId ("#" ++ fragment))
    (hroot : ¬root.HoldsId (key ++ "#" ++ fragment))
    (hplain : percentDecoded fragment.toList = fragment.toList)
    (hslashes : ¬['/', '/'] <:+ fragment.toList) :
    resolve? document [] ("#" ++ fragment) =
      resolve? root [(key, document)] (key ++ "#" ++ fragment) := by
  rw [resolve?_fragment hf hdocument, resolve?_external hkey hf hroot, hplain, Json.pointerChars?,
    Json.pointerChars?, hf.dropSign, hf.dropSlash.dropSign, Pointer.dropSlash_dropSlash hslashes]

/-- A member and an item behind a key with percent escapes. -/
theorem fragment_resolves_item :
    IsKey "my%20doc" ∧ Pointer.IsFragment "/a~1b/1".toList ∧
      percentDecoded "/a~1b/1".toList = "/a~1b/1".toList ∧
      resolve? (.object [("a/b", .array [.null, .bool true])]) [] "#/a~1b/1" =
        some (.bool true) ∧
      resolve? (.object []) [("my%20doc", .object [("a/b", .array [.null, .bool true])])]
        "my%20doc#/a~1b/1" = some (.bool true) := by
  have hkey : IsKey "my%20doc" := by decide +kernel
  have hf : Pointer.IsFragment "/a~1b/1".toList := by decide +kernel
  have hplain : percentDecoded "/a~1b/1".toList = "/a~1b/1".toList := by decide +kernel
  have hfound : resolve? (.object [("a/b", .array [.null, .bool true])]) [] ("#" ++ "/a~1b/1") =
      some (.bool true) := by decide +kernel
  have hdocument : ¬(Json.object [("a/b", .array [.null, .bool true])]).HoldsId
      ("#" ++ "/a~1b/1") := Json.findId?_eq_none_iff.1 (by decide +kernel)
  have hroot : ¬(Json.object []).HoldsId ("my%20doc" ++ "#" ++ "/a~1b/1") :=
    Json.findId?_eq_none_iff.1 (by decide +kernel)
  have hsame := fragment_resolves hkey hf hdocument hroot hplain (by decide +kernel)
  exact ⟨hkey, hf, hplain, hfound, hsame.symm.trans hfound⟩

/-- An escape and two slashes at the end are read in two ways. -/
theorem fragment_of_two_readings :
    IsKey "k" ∧
      (Pointer.IsFragment "/a%20b".toList ∧
        ¬(Json.object [("a b", .bool true)]).HoldsId "#/a%20b" ∧
        ¬(Json.object []).HoldsId "k#/a%20b" ∧
        resolve? (.object [("a b", .bool true)]) [] "#/a%20b" = some (.bool true) ∧
        resolve? (.object []) [("k", .object [("a b", .bool true)])] "k#/a%20b" = none) ∧
      Pointer.IsFragment "/a//".toList ∧
        ¬(Json.object [("a", .object [("", .bool true)])]).HoldsId "#/a//" ∧
        ¬(Json.object []).HoldsId "k#/a//" ∧
        resolve? (.object [("a", .object [("", .bool true)])]) [] "#/a//" = some (.bool true) ∧
        resolve? (.object []) [("k", .object [("a", .object [("", .bool true)])])] "k#/a//" =
          some (.object [("", .bool true)]) := by
  simp only [← Json.findId?_eq_none_iff]
  decide +kernel

end JsonSchema
