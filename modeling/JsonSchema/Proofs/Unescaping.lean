import JsonSchema.Proofs.Replacing

/-!
# Undoing escapes from tilde to tilde

The escapes of a text are undone by going over its bytes from tilde to tilde. Each pass cuts the
text at the offset of a tilde and again behind the escape there, which is told by the one byte
after the tilde. A cut inside a character has no result. As only a zero and a one have the bytes
that are looked for, both cuts are between characters, and each pass leaves fewer bytes.

* `Pointer.cut?`: cutting a text at a byte offset;
* `Pointer.pass?`, `Pointer.scan?`: one pass, and passes until no tilde is left;
* `Pointer.pass?_tilde`: what one pass writes;
* `Pointer.scan?_eq`: passes undo the escapes;
* `Pointer.unescape_onePass`: one pass, two replacements, and escaping undone.
-/

namespace JsonSchema

/-! ## Bytes -/

theorem getElem?_toUTF8 (s : String) (i : Nat) :
    s.toUTF8[i]? = (s.toList.flatMap String.utf8EncodeChar)[i]? := by
  have hs : s.toUTF8 = (s.toList.flatMap String.utf8EncodeChar).toByteArray := by
    have h : (String.ofList s.toList).toByteArray = s.toList.utf8Encode :=
      String.toByteArray_ofList
    rw [String.ofList_toList] at h
    exact h
  rw [hs]
  by_cases hi : i < (s.toList.flatMap String.utf8EncodeChar).length
  · rw [List.getElem?_eq_getElem hi, getElem?_pos _ _ (by simpa using hi),
      List.getElem_toByteArray]
  · rw [List.getElem?_eq_none (by omega), getElem?_neg _ _ (by simpa using hi)]

theorem le_toNat_or {a b : UInt8} (h : 128 ≤ b.toNat) : 128 ≤ (a ||| b).toNat := by
  rw [UInt8.toNat_or]
  exact Nat.le_trans h Nat.right_le_or

/-- The first byte of a longer character is no ASCII byte. -/
theorem le_head_utf8EncodeChar {c : Char} (hc : c.utf8Size ≠ 1) {b : UInt8}
    (hb : (String.utf8EncodeChar c).head? = some b) : 128 ≤ b.toNat := by
  obtain h | h | h | h := c.utf8Size_eq
  · exact absurd h hc
  · rw [String.utf8EncodeChar_eq_cons_cons h] at hb
    exact Option.some.inj hb ▸ le_toNat_or (by decide)
  · rw [String.utf8EncodeChar_eq_cons_cons_cons h] at hb
    exact Option.some.inj hb ▸ le_toNat_or (by decide)
  · rw [String.utf8EncodeChar_eq_cons_cons_cons_cons h] at hb
    exact Option.some.inj hb ▸ le_toNat_or (by decide)

theorem toNat_toUInt8 {c : Char} (hc : c.utf8Size = 1) :
    c.toUInt8.toNat = c.toNat ∧ c.toNat < 128 := by
  have hle : c.toNat ≤ 127 := UInt32.le_iff_toNat_le.1 (Char.utf8Size_eq_one_iff.1 hc)
  have hmod : c.toUInt8.toNat = c.toNat % 256 := UInt32.toNat_toUInt8 c.val
  omega

/-- Only an ASCII character starts with its byte. -/
theorem head?_utf8EncodeChar_iff {c d : Char} (hd : d.utf8Size = 1) :
    (String.utf8EncodeChar c).head? = some d.toUInt8 ↔ c = d := by
  obtain ⟨hbyte, hlt⟩ := toNat_toUInt8 hd
  constructor
  · intro h
    by_cases hc : c.utf8Size = 1
    · rw [String.utf8EncodeChar_eq_singleton hc] at h
      have heq : c.toUInt8 = d.toUInt8 := Option.some.inj h
      rw [← Char.toNat_inj, ← hbyte, ← (toNat_toUInt8 hc).1, heq]
    · have := le_head_utf8EncodeChar hc h
      omega
  · rintro rfl
    rw [String.utf8EncodeChar_eq_singleton hd]
    rfl

/-- The byte behind an ASCII character is that of another one if that one follows. -/
theorem getElem?_one_toUTF8 {c d : Char} (hc : c.utf8Size = 1) (hd : d.utf8Size = 1) (s : String) :
    (String.singleton c ++ s).toUTF8[1]? = some d.toUInt8 ↔ s.toList.head? = some d := by
  have hfirst : (String.utf8EncodeChar c) = [c.val.toUInt8] := String.utf8EncodeChar_eq_singleton hc
  rw [getElem?_toUTF8, String.toList_append, String.toList_singleton, List.singleton_append,
    List.flatMap_cons, hfirst, List.singleton_append, List.getElem?_cons_succ,
    ← List.head?_eq_getElem?]
  cases s.toList with
  | nil => simp
  | cons e cs =>
    rw [List.flatMap_cons, List.head?_append_of_ne_nil _ String.utf8EncodeChar_ne_nil,
      head?_utf8EncodeChar_iff hd, List.head?_cons, Option.some.injEq]

namespace Pointer

/-! ## Cutting -/

def cut? (s : String) (n : Nat) : Option (String × String) :=
  if h : (⟨n⟩ : String.Pos.Raw).IsValid s then
    some ((s.sliceTo (s.pos ⟨n⟩ h)).copy, (s.sliceFrom (s.pos ⟨n⟩ h)).copy)
  else none

/-- A text is cut after each of its beginnings, and nowhere else. -/
theorem cut?_eq_some_iff {s t u : String} {n : Nat} :
    cut? s n = some (t, u) ↔ s = t ++ u ∧ t.utf8ByteSize = n := by
  rw [cut?]
  constructor
  · intro h
    split at h
    · next hn =>
      cases h
      have hsplits := (s.pos ⟨n⟩ hn).splits
      exact ⟨hsplits.eq_append, congrArg String.Pos.Raw.byteIdx hsplits.offset_eq_rawEndPos.symm⟩
    · cases h
  · rintro ⟨rfl, rfl⟩
    have hn : (⟨t.utf8ByteSize⟩ : String.Pos.Raw).IsValid (t ++ u) :=
      String.Pos.Raw.isValid_iff_exists_append.2 ⟨t, u, rfl, rfl⟩
    have hsplits : ((t ++ u).pos ⟨t.utf8ByteSize⟩ hn).Splits t u := ⟨rfl, rfl⟩
    rw [dif_pos hn]
    exact congrArg some (Prod.ext hsplits.copy_sliceTo_eq hsplits.copy_sliceFrom_eq)

/-! ## From tilde to tilde -/

/-- What the escape in front of a text stands for, and how many bytes it takes. A tilde before any
other byte than that of a zero or a one stands for itself. -/
def escapeAt (s : String) : Char × Nat :=
  if s.toUTF8[1]? = some '1'.toUInt8 then ('/', 2)
  else if s.toUTF8[1]? = some '0'.toUInt8 then ('~', 2)
  else ('~', 1)

/-- One pass: what is written for a text up to the tilde at a byte offset and for the escape there,
and the text behind the escape. -/
def pass? (s : String) (n : Nat) : Option (String × String) := do
  let (plain, escape) ← cut? s n
  let (_, rest) ← cut? escape (escapeAt escape).2
  return (plain.push (escapeAt escape).1, rest)

theorem pass?_eq_some_iff {s out rest : String} {n : Nat} :
    pass? s n = some (out, rest) ↔ ∃ plain skipped, s = plain ++ (skipped ++ rest) ∧
      plain.utf8ByteSize = n ∧ skipped.utf8ByteSize = (escapeAt (skipped ++ rest)).2 ∧
        out = plain.push (escapeAt (skipped ++ rest)).1 := by
  simp only [pass?, Option.bind_eq_bind, Option.bind_eq_some_iff, Prod.exists, Option.pure_def,
    Option.some.injEq, Prod.mk.injEq, cut?_eq_some_iff]
  constructor
  · rintro ⟨plain, escape, ⟨rfl, hplain⟩, skipped, _, ⟨rfl, hskipped⟩, rfl, rfl⟩
    exact ⟨plain, skipped, rfl, hplain, hskipped, rfl⟩
  · rintro ⟨plain, skipped, rfl, hplain, hskipped, rfl⟩
    exact ⟨plain, _, ⟨rfl, hplain⟩, skipped, _, ⟨rfl, hskipped⟩, rfl, rfl⟩

theorem pass?_shortens {s out rest : String} {n : Nat} (h : pass? s n = some (out, rest)) :
    rest.utf8ByteSize < s.utf8ByteSize := by
  obtain ⟨plain, skipped, rfl, -, hskipped, -⟩ := pass?_eq_some_iff.1 h
  have hwidth : 1 ≤ skipped.utf8ByteSize := by
    rw [hskipped, escapeAt]
    split_ifs <;> decide
  rw [String.utf8ByteSize_append, String.utf8ByteSize_append]
  omega

/-- Undo the escapes of a text from tilde to tilde, after what was written so far. -/
def scan? (written s : String) : Option String :=
  match s.find? '~' with
  | none => some (written ++ s)
  | some p =>
    match _h : pass? s p.offset.byteIdx with
    | none => none
    | some (out, rest) => scan? (written ++ out) rest
termination_by s.utf8ByteSize
decreasing_by exact pass?_shortens _h

theorem find?_tilde_eq_none {s : String} (h : s.find? '~' = none) : '~' ∉ s.toList := by
  intro hmem
  obtain ⟨cs, ds, hs, hcs⟩ := List.eq_append_cons_of_mem hmem
  have hsplit : s = String.ofList cs ++ (String.singleton '~' ++ String.ofList ds) := by
    simp [← String.toList_inj, hs]
  have hfound := String.find?_char_eq_some_iff_splits.2
    ⟨_, _, String.Pos.splits_ofEqAppend hsplit, by simpa using hcs⟩
  rw [h] at hfound
  cases hfound

theorem escapeAt_tilde (t : String) :
    escapeAt (String.singleton '~' ++ t) =
      if t.toList.head? = some '1' then ('/', 2)
      else if t.toList.head? = some '0' then ('~', 2) else ('~', 1) := by
  simp only [escapeAt, getElem?_one_toUTF8 (c := '~') (d := '1') rfl rfl,
    getElem?_one_toUTF8 (c := '~') (d := '0') rfl rfl]

theorem unescapeChars_tilde {cs : List Char} (hone : cs.head? ≠ some '1')
    (hzero : cs.head? ≠ some '0') : unescapeChars ('~' :: cs) = '~' :: unescapeChars cs := by
  rw [unescapeChars]
  · rintro ds - rfl
    exact hone rfl
  · rintro ds - rfl
    exact hzero rfl

/-- The escape at a tilde takes the bytes of its characters, and is undone. -/
theorem escapeAt_splits (t : String) : ∃ skipped rest,
    String.singleton '~' ++ t = skipped ++ rest ∧
      skipped.utf8ByteSize = (escapeAt (String.singleton '~' ++ t)).2 ∧
      unescapeChars ('~' :: t.toList) =
        (escapeAt (String.singleton '~' ++ t)).1 :: unescapeChars rest.toList := by
  rw [escapeAt_tilde]
  split_ifs with hone hzero
  · obtain ⟨cs, hcs⟩ := List.head?_eq_some_iff.1 hone
    refine ⟨"~1", String.ofList cs, ?_, rfl, ?_⟩
    · simp [← String.toList_inj, hcs]
    · rw [hcs, String.toList_ofList, unescapeChars]
  · obtain ⟨cs, hcs⟩ := List.head?_eq_some_iff.1 hzero
    refine ⟨"~0", String.ofList cs, ?_, rfl, ?_⟩
    · simp [← String.toList_inj, hcs]
    · rw [hcs, String.toList_ofList, unescapeChars]
  · exact ⟨String.singleton '~', t, rfl, rfl, unescapeChars_tilde hone hzero⟩

/-- **One pass** cuts between characters, and writes what the text up to the rest stands for. -/
theorem pass?_tilde {s : String} {p : s.Pos} (hp : s.find? '~' = some p) : ∃ out rest,
    pass? s p.offset.byteIdx = some (out, rest) ∧
      unescapeChars s.toList = out.toList ++ unescapeChars rest.toList := by
  obtain ⟨plain, t, hsplits, htilde⟩ := String.find?_char_eq_some_iff_splits.1 hp
  obtain ⟨skipped, rest, hescape, hskipped, hchars⟩ := escapeAt_splits t
  refine ⟨_, rest, pass?_eq_some_iff.2 ⟨plain, skipped, ?_, ?_, ?_, rfl⟩, ?_⟩
  · rw [hsplits.eq_append, hescape]
  · rw [hsplits.offset_eq_rawEndPos, String.byteIdx_rawEndPos]
  · rw [hskipped, hescape]
  · have hs : s.toList = plain.toList ++ '~' :: t.toList := by
      rw [hsplits.eq_append]
      simp
    rw [hs, unescapeChars_append htilde, hchars, hescape]
    simp

/-- **The scan** comes to an end, cuts between characters only, and undoes the escapes. -/
theorem scan?_eq (written s : String) : scan? written s = some (written ++ unescape s) := by
  fun_induction scan? written s with
  | case1 written s hnone =>
    rw [unescape, unescapeChars_eq_self (find?_tilde_eq_none hnone), String.ofList_toList]
  | case2 written s p hp hpass =>
    obtain ⟨out, rest, hsome, -⟩ := pass?_tilde hp
    rw [hpass] at hsome
    cases hsome
  | case3 written s p hp out rest hpass ih =>
    obtain ⟨out', rest', hsome, hchars⟩ := pass?_tilde hp
    rw [hpass] at hsome
    cases hsome
    rw [ih, unescape, unescape, hchars, String.ofList_append, String.ofList_toList,
      String.append_assoc]

/-! ## Names in pointers -/

/-- The token of a name in a pointer. -/
def escape (name : String) : String := String.ofList (name.toList.flatMap Segment.escapeChar)

theorem pointer_concat_name (p : Path) (name : String) :
    (p ++ [.name name] : Path).pointer = p.pointer ++ "/" ++ escape name := by
  simp [← String.toList_inj, Path.pointer, Segment.pointer, escape]

theorem unescape_escape (name : String) : unescape (escape name) = name := by
  rw [unescape, escape, String.toList_ofList, unescapeChars_escape, String.ofList_toList]

/-- **Undoing escapes** in one pass is replacing `~1` everywhere and `~0` after that. The pass over
the bytes ends with this text, without a cut inside a character, and it gives back each name that a
pointer has escaped. -/
theorem unescape_onePass :
    (∀ s : String, unescape s = (s.replace "~1" "/").replace "~0" "~") ∧
    (∀ s : String, scan? "" s = some (unescape s)) ∧
    ∀ (p : Path) (name : String),
      (p ++ [.name name] : Path).pointer = p.pointer ++ "/" ++ escape name ∧
        scan? "" (escape name) = some name := by
  refine ⟨unescape_eq_replace, fun s => ?_, fun p name => ⟨pointer_concat_name p name, ?_⟩⟩
  · rw [scan?_eq, String.empty_append]
  · rw [scan?_eq, String.empty_append, unescape_escape]

example : unescape "~01~~1~" = "~1~/~" := by decide

end Pointer

end JsonSchema
