import JsonSchema.Json.Reader
import JsonSchema.Proofs.Pointers
import JsonSchema.Violation

/-!
# Fields that were written

The field of a path is read back segment by segment: a name after a point ends where the next
segment starts, an index ends at its bracket, and a quoted name is read as the string that it is.
So different paths have different fields. No field has a control character, and a summary has one
line for each violation.

* `Reader.readString?_escapeAll`: a string that was quoted is read back;
* `Segment.read?_field`: so is a segment, whatever segments follow;
* `Path.le_of_mem_field`: the characters of a field are not below U+0020;
* `Path.field_unambiguous`: different paths have different fields, and summaries split into lines.
-/

namespace JsonSchema

/-! ## Quoted strings -/

namespace Reader

open Quoted (letter? escape escapeAll)

/-- The letter of an escape is read back, and it is none that takes hex digits. -/
theorem letterValue?_of_letter? {c l : Char} (h : letter? c = some l) :
    letterValue? l = some c ∧ l ≠ 'u' := by
  have hchar {n : Nat} (hn : c.toNat = n) : Char.ofNat n = c := by rw [← hn, Char.ofNat_toNat]
  rw [letter?] at h
  split_ifs at h with hquote hslash hb ht hn hf hr <;> cases h
  · exact ⟨by rw [hquote]; rfl, by decide⟩
  · exact ⟨by rw [hslash]; rfl, by decide⟩
  · exact ⟨congrArg some (hchar hb), by decide⟩
  · exact ⟨congrArg some (hchar ht), by decide⟩
  · exact ⟨congrArg some (hchar hn), by decide⟩
  · exact ⟨congrArg some (hchar hf), by decide⟩
  · exact ⟨congrArg some (hchar hr), by decide⟩

/-- The four hex digits of a small character. -/
theorem readHexEscape?_small {c : Char} (h : c.toNat < 32) (cs : List Char) :
    readHexEscape? ('0' :: '0' :: hexDigit (c.toNat / 16) :: hexDigit (c.toNat % 16) :: cs) =
      some (c, cs) := by
  have hzero : hexValue? '0' = some 0 := by decide
  have hhigh := hexValue?_hexDigit (n := c.toNat / 16) (by omega)
  have hlow := hexValue?_hexDigit (n := c.toNat % 16) (by omega)
  have hunit : c.toNat / 16 * 16 + c.toNat % 16 = c.toNat := Nat.div_add_mod' _ _
  have hsmall : c.toNat < 0xD800 := by omega
  simp [readHexEscape?, readUnit?, hzero, hhigh, hlow, hunit, hsmall]

theorem readString?_escape (fuel : Nat) (done : List Char) (c : Char) (cs : List Char) :
    readString? (fuel + 1) done (escape c ++ cs) = readString? fuel (c :: done) cs := by
  rw [escape]
  cases hl : letter? c with
  | some l =>
    obtain ⟨hvalue, hne⟩ := letterValue?_of_letter? hl
    rw [List.cons_append, List.cons_append, List.nil_append, readString?]
    · rw [hvalue]
      rfl
    · exact hne
  | none =>
    have hquote : c ≠ '"' := by
      rintro rfl
      cases hl
    have hslash : c ≠ '\\' := by
      rintro rfl
      cases hl
    by_cases hsmall : c.toNat < 32
    · simp only [hsmall, if_true, List.cons_append, List.nil_append]
      rw [readString?, readHexEscape?_small hsmall]
      rfl
    · simp only [hsmall, if_false, List.cons_append, List.nil_append]
      rw [readString?]
      · rw [if_neg hsmall]
      all_goals simp_all

/-- **A string that was quoted is read back**, up to its closing quote. -/
theorem readString?_escapeAll {fuel : Nat} {cs : List Char} (h : cs.length < fuel)
    (done rest : List Char) :
    readString? fuel done (escapeAll cs ++ '"' :: rest) =
      some (String.ofList (done.reverse ++ cs), rest) := by
  induction cs generalizing fuel done with
  | nil =>
    obtain ⟨fuel, rfl⟩ := Nat.exists_eq_add_of_lt h
    rw [List.append_nil]
    rfl
  | cons c cs ih =>
    obtain ⟨fuel, rfl⟩ : ∃ n, fuel = n + 1 := ⟨fuel - 1, by omega⟩
    rw [escapeAll, List.flatMap_cons, List.append_assoc, readString?_escape]
    rw [List.length_cons] at h
    refine (ih (Nat.lt_of_succ_lt_succ h) (c :: done)).trans ?_
    rw [List.reverse_cons, List.append_assoc, List.singleton_append]

end Reader

/-- Every character of a string takes at least one in its quoted form. -/
theorem Quoted.length_le_escapeAll (cs : List Char) : cs.length ≤ (escapeAll cs).length := by
  have hescape (c : Char) : 1 ≤ (escape c).length := by
    rw [escape]
    cases letter? c with
    | some l => exact Nat.succ_le_succ (Nat.zero_le _)
    | none =>
      dsimp only
      split <;> exact Nat.succ_le_succ (Nat.zero_le _)
  induction cs with
  | nil => exact Nat.le_refl _
  | cons c cs ih =>
    rw [escapeAll, List.flatMap_cons, List.length_append, List.length_cons, Nat.add_comm]
    exact Nat.add_le_add (hescape c) ih

/-! ## Reading segments -/

theorem isNamePart_of_isNameStart {c : Char} (h : isNameStart c = true) : isNamePart c = true := by
  simp only [isNameStart, isNamePart, Unicode.isAlphanumeric, Bool.or_eq_true] at h ⊢
  tauto

theorem isNamePart_of_isIdentifier {cs : List Char} (h : isIdentifier cs = true) :
    ∀ c ∈ cs, isNamePart c = true := by
  cases cs with
  | nil => cases h
  | cons c cs =>
    rw [isIdentifier, Bool.and_eq_true, List.all_eq_true] at h
    exact List.forall_mem_cons.2 ⟨isNamePart_of_isNameStart h.1, h.2⟩

namespace Segment

/-- Read a segment off the front of a text, as it is written in a field. -/
def read? : List Char → Option (Segment × List Char)
  | '.' :: cs => some (name (String.ofList (cs.takeWhile isNamePart)), cs.dropWhile isNamePart)
  | '[' :: '"' :: cs =>
    match Reader.readString? (cs.length + 1) [] cs with
    | some (s, ']' :: rest) => some (name s, rest)
    | _ => none
  | '[' :: cs =>
    match cs.dropWhile Char.isDigit with
    | ']' :: rest => some (index (digitsValue (cs.takeWhile Char.isDigit)), rest)
    | _ => none
  | _ => none

/-- Whether a text can follow a segment: it is empty, or it starts with a segment. -/
def Follows (cs : List Char) : Prop := ∀ c ∈ cs.head?, c = '.' ∨ c = '['

/-- Cut where the characters of one kind end. -/
theorem cut_append {p : Char → Bool} {cs rest : List Char} (hcs : ∀ c ∈ cs, p c = true)
    (hrest : ∀ c ∈ rest.head?, p c = false) :
    (cs ++ rest).takeWhile p = cs ∧ (cs ++ rest).dropWhile p = rest := by
  rw [List.takeWhile_append_of_pos hcs, List.dropWhile_append_of_pos hcs]
  cases rest with
  | nil => exact ⟨List.append_nil cs, rfl⟩
  | cons c rest => simp [hrest c rfl]

theorem read?_name {cs rest : List Char} (hcs : isIdentifier cs = true) (hrest : Follows rest) :
    read? ('.' :: (cs ++ rest)) = some (name (String.ofList cs), rest) := by
  have hend : ∀ c ∈ rest.head?, isNamePart c = false := by
    intro c hc
    rcases hrest c hc with rfl | rfl <;> decide
  obtain ⟨htake, hdrop⟩ := cut_append (isNamePart_of_isIdentifier hcs) hend
  rw [read?, htake, hdrop]

theorem read?_quoted (cs rest : List Char) :
    read? ('[' :: '"' :: (Quoted.escapeAll cs ++ '"' :: ']' :: rest)) =
      some (name (String.ofList cs), rest) := by
  have hfuel : cs.length < (Quoted.escapeAll cs ++ '"' :: ']' :: rest).length + 1 := by
    rw [List.length_append]
    have := Quoted.length_le_escapeAll cs
    omega
  rw [read?, Reader.readString?_escapeAll hfuel]
  rfl

theorem read?_index (n : Nat) (rest : List Char) :
    read? ('[' :: (natText n ++ ']' :: rest)) = some (index n, rest) := by
  have hdigits : ∀ c ∈ natText n, c.isDigit = true := fun _ => Pointer.isDigit_of_mem_natText
  have hbracket : ∀ c ∈ (']' :: rest).head?, c.isDigit = false := by
    rintro c ⟨⟩
    decide
  obtain ⟨htake, hdrop⟩ := cut_append hdigits hbracket
  rw [read?]
  · simp only [htake, hdrop, digitsValue_natText]
  · intro cs hcs
    cases hn : natText n with
    | nil => exact Nat.toDigits_ne_nil hn
    | cons d ds =>
      rw [hn, List.cons_append] at hcs
      have hquote := hdigits d (hn ▸ List.mem_cons_self)
      rw [(List.cons.inj hcs).1] at hquote
      cases hquote

/-- **A segment is read back** from what is written for it, whatever segments follow. -/
theorem read?_field (seg : Segment) {rest : List Char} (hrest : Follows rest) :
    read? (seg.field ++ rest) = some (seg, rest) := by
  cases seg with
  | name s =>
    rw [field]
    split
    · next hs => rw [List.cons_append, read?_name hs hrest, String.ofList_toList]
    · simp only [List.cons_append, List.append_assoc, List.nil_append]
      rw [read?_quoted, String.ofList_toList]
  | index n =>
    rw [field, List.cons_append, List.cons_append, List.append_assoc, List.singleton_append]
    exact read?_index n rest

theorem follows_field (seg : Segment) (rest : List Char) : Follows (seg.field ++ rest) := by
  cases seg with
  | name s =>
    rw [field]
    split
    · rintro c ⟨⟩
      exact .inl rfl
    · rintro c ⟨⟩
      exact .inr rfl
  | index n =>
    rintro c ⟨⟩
    exact .inr rfl

theorem follows_flatMap (p : Path) : Follows (p.flatMap field) := by
  cases p with
  | nil =>
    rintro c ⟨⟩
  | cons seg p => exact follows_field seg _

end Segment

/-! ## Different paths -/

namespace Path

/-- Reading a field gives its first segment and leaves the field of the others. -/
theorem read?_flatMap_field (seg : Segment) (p : Path) :
    Segment.read? ((seg :: p).flatMap Segment.field) = some (seg, p.flatMap Segment.field) := by
  rw [List.flatMap_cons, seg.read?_field (Segment.follows_flatMap p)]

theorem eq_of_flatMap_field {p q : Path}
    (h : p.flatMap Segment.field = q.flatMap Segment.field) : p = q := by
  induction p generalizing q with
  | nil =>
    cases q with
    | nil => rfl
    | cons seg q =>
      have hread := read?_flatMap_field seg q
      rw [← h] at hread
      cases hread
  | cons seg p ih =>
    have hread := read?_flatMap_field seg p
    cases q with
    | nil =>
      rw [h] at hread
      cases hread
    | cons seg' q =>
      rw [h, read?_flatMap_field] at hread
      obtain ⟨rfl, hrest⟩ := Prod.mk.inj (Option.some.inj hread)
      rw [ih hrest.symm]

theorem field_injective {p q : Path} (h : p.field = q.field) : p = q :=
  eq_of_flatMap_field (List.append_cancel_left (String.ofList_inj.1 h))

end Path

/-! ## Characters of fields -/

/-- No control character is part of a name. -/
theorem le_of_isNamePart {c : Char} (h : isNamePart c = true) : 32 ≤ c.toNat := by
  have hcontrol : ∀ n < 32, isNamePart (Char.ofNat n) = false := by decide
  by_contra hlt
  have hpart := hcontrol c.toNat (Nat.lt_of_not_le hlt)
  rw [Char.ofNat_toNat, h] at hpart
  cases hpart

theorem le_of_isDigit {c : Char} (h : c.isDigit = true) : 32 ≤ c.toNat :=
  Nat.le_trans (by decide) (Char.isDigit_iff_toNat.1 h).1

namespace Quoted

/-- An escape has no control character. -/
theorem le_of_mem_escape {c d : Char} (h : d ∈ escape c) : 32 ≤ d.toNat := by
  have hhex : ∀ n < 16, 32 ≤ (hexDigit n).toNat := by decide
  rw [escape] at h
  cases hl : letter? c with
  | some l =>
    have hletter : 32 ≤ l.toNat := by
      rw [letter?] at hl
      split_ifs at hl <;> cases hl <;> decide
    rw [hl] at h
    rcases List.mem_pair.1 h with rfl | rfl
    · decide
    · exact hletter
  | none =>
    simp only [hl] at h
    split at h
    · next hsmall =>
      have hhigh := hhex (c.toNat / 16) (by omega)
      have hlow := hhex (c.toNat % 16) (by omega)
      simp only [List.mem_cons, List.not_mem_nil, or_false] at h
      rcases h with rfl | rfl | rfl | rfl | rfl | rfl
      · decide
      · decide
      · decide
      · decide
      · exact hhigh
      · exact hlow
    · next hsmall =>
      rw [List.mem_singleton.1 h]
      omega

end Quoted

theorem Segment.le_of_mem_field {seg : Segment} {c : Char} (h : c ∈ seg.field) :
    32 ≤ c.toNat := by
  cases seg with
  | name s =>
    rw [field] at h
    split at h
    · next hs =>
      rcases List.mem_cons.1 h with rfl | h
      · decide
      · exact le_of_isNamePart (isNamePart_of_isIdentifier hs c h)
    · simp only [List.cons_append, List.mem_cons, List.mem_append, List.not_mem_nil,
        or_false] at h
      rcases h with rfl | rfl | h | rfl | rfl
      · decide
      · decide
      · obtain ⟨d, -, hd⟩ := List.mem_flatMap.1 h
        exact Quoted.le_of_mem_escape hd
      · decide
      · decide
  | index n =>
    simp only [field, List.cons_append, List.mem_cons, List.mem_append, List.not_mem_nil,
      or_false] at h
    rcases h with rfl | h | rfl
    · decide
    · exact le_of_isDigit (Pointer.isDigit_of_mem_natText h)
    · decide

theorem Path.toList_field (p : Path) :
    p.field.toList = ['d', 'a', 't', 'a'] ++ p.flatMap Segment.field :=
  String.toList_ofList

/-- **No field has a control character.** -/
theorem Path.le_of_mem_field {p : Path} {c : Char} (h : c ∈ p.field.toList) : 32 ≤ c.toNat := by
  rw [toList_field, List.mem_append, List.mem_flatMap] at h
  rcases h with hdata | ⟨seg, -, h⟩
  · simp only [List.mem_cons, List.not_mem_nil, or_false] at hdata
    rcases hdata with rfl | rfl | rfl | rfl <;> decide
  · exact Segment.le_of_mem_field h

/-! ## Summaries -/

/-- The lines of a text, cut at each newline. The empty text has none. -/
def linesOf (text : String) : List String :=
  if text = "" then [] else (text.toList.splitOn '\n').map String.ofList

namespace Violation

theorem newline_not_mem_line {v : Violation} (h : '\n' ∉ v.message.toList) :
    '\n' ∉ v.line.toList := by
  rw [line, String.toList_append, String.toList_append, List.mem_append, List.mem_append]
  rintro ((hfield | hblank) | hmessage)
  · exact absurd (Path.le_of_mem_field hfield) (by decide)
  · exact absurd hblank (by decide)
  · exact h hmessage

theorem line_ne_empty (v : Violation) : v.line ≠ "" := by
  intro h
  have hlist := congrArg String.toList h
  rw [line, field, String.toList_append, String.toList_append, Path.toList_field] at hlist
  cases hlist

/-- A summary of violations whose messages are on one line has one line for each of them. -/
theorem linesOf_summary {vs : List Violation} (h : ∀ v ∈ vs, '\n' ∉ v.message.toList) :
    linesOf (summary vs) = vs.map line := by
  cases vs with
  | nil => rfl
  | cons v vs =>
    have hlines : ∀ l ∈ ((v :: vs).map line).map String.toList, '\n' ∉ l := by
      simp only [List.map_map, List.forall_mem_map]
      exact fun w hw => newline_not_mem_line (h w hw)
    have hsplit : (summary (v :: vs)).toList.splitOn '\n' =
        ((v :: vs).map line).map String.toList := by
      rw [summary, String.toList_intercalate]
      exact List.splitOn_intercalate '\n' hlines (by simp)
    have hne : summary (v :: vs) ≠ "" := by
      intro hempty
      rw [hempty] at hsplit
      exact line_ne_empty v (String.toList_eq_nil_iff.1 (List.cons.inj hsplit).1.symm)
    rw [linesOf, if_neg hne, hsplit, List.map_map]
    simp [Function.comp_def]

end Violation

/-- **Fields are unambiguous**: different paths have different fields. They have no control
character, so the summary of violations whose messages have no newline has one line for each. -/
theorem Path.field_unambiguous :
    (∀ p q : Path, p ≠ q → p.field ≠ q.field) ∧
    (∀ p : Path, ∀ c ∈ p.field.toList, 0x20 ≤ c.toNat) ∧
    ∀ vs : List Violation, (∀ v ∈ vs, '\n' ∉ v.message.toList) →
      linesOf (Violation.summary vs) = vs.map Violation.line :=
  ⟨fun _ _ hne h => hne (field_injective h), fun _ _ => le_of_mem_field,
    fun _ => Violation.linesOf_summary⟩

/-- Names that imitate other segments, and a name with a newline in it. -/
theorem Path.field_unambiguous_imitating :
    ([.name "0"] : Path) ≠ [.index 0] ∧ Path.field [.name "0"] ≠ Path.field [.index 0] ∧
    ([.name "-\"][\"-"] : Path) ≠ [.name "-", .name "-"] ∧
      Path.field [.name "-\"][\"-"] ≠ Path.field [.name "-", .name "-"] ∧
    (∀ c ∈ (Path.field [.name "a\nb"]).toList, 0x20 ≤ c.toNat) ∧
    '\n' ∉ Violation.Kind.required.message.toList ∧
      linesOf (Violation.summary
        [⟨[.name "a\nb"], .required, none⟩, ⟨[.index 2], .type, none⟩]) =
        ["data[\"a\\nb\"] is required", "data[2] is the wrong type"] := by
  have hquoted : ([.name "-\"][\"-"] : Path) ≠ [.name "-", .name "-"] := by decide
  have hmessages : ∀ v ∈ ([⟨[.name "a\nb"], .required, none⟩, ⟨[.index 2], .type, none⟩] :
      List Violation), '\n' ∉ v.message.toList := by decide
  exact ⟨by decide, Path.field_unambiguous.1 _ _ (by decide), hquoted,
    Path.field_unambiguous.1 _ _ hquoted, Path.field_unambiguous.2.1 _, by decide,
    (Path.field_unambiguous.2.2 _ hmessages).trans (by decide)⟩

end JsonSchema
