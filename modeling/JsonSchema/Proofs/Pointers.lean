import JsonSchema.Path
import JsonSchema.Proofs.Identifiers

/-!
# Pointers that were written

The pointer of a path, read as a pointer, leads to the value at the path. Each token is unescaped to
the name or the index that it was written for, and no escaped token has a slash in it. Only a
path that ends with the empty name is cut short, since its pointer ends with a slash.

* `Pointer.unescapeChars_escape`, `Pointer.indexChars?_natText`: names and indices are read back;
* `Pointer.tokens_pointer`: the tokens of a pointer are those of the segments;
* `Path.pointed`: the path that the pointer of a path leads along;
* `Path.pointer_leads`: looking up the pointer of a path, as it is or in a reference.
-/

namespace JsonSchema

/-! ## Tokens -/

namespace Pointer

theorem unescapeChars_cons {c : Char} (h : c ≠ '~') (cs : List Char) :
    unescapeChars (c :: cs) = c :: unescapeChars cs := by
  rw [unescapeChars.eq_def]
  split <;> simp_all

/-- Names are read back. -/
theorem unescapeChars_escape (cs : List Char) :
    unescapeChars (cs.flatMap Segment.escapeChar) = cs := by
  induction cs with
  | nil => rfl
  | cons c cs ih =>
    by_cases htilde : c = '~'
    · subst htilde
      simp [Segment.escapeChar, unescapeChars, ih]
    by_cases hslash : c = '/'
    · subst hslash
      simp [Segment.escapeChar, unescapeChars, ih]
    have hc : Segment.escapeChar c = [c] := by simp [Segment.escapeChar, htilde, hslash]
    rw [List.flatMap_cons, hc, List.singleton_append, unescapeChars_cons htilde, ih]

theorem unescapeChars_append {cs : List Char} (h : '~' ∉ cs) (ds : List Char) :
    unescapeChars (cs ++ ds) = cs ++ unescapeChars ds := by
  induction cs with
  | nil => rfl
  | cons c cs ih =>
    rw [List.mem_cons, not_or] at h
    rw [List.cons_append, unescapeChars_cons (Ne.symm h.1), ih h.2, List.cons_append]

theorem unescapeChars_eq_self {cs : List Char} (h : '~' ∉ cs) : unescapeChars cs = cs := by
  simpa [unescapeChars] using unescapeChars_append h []

/-- Escapes stand for slashes and tildes only. -/
theorem eq_of_unescapeChars {cs ds : List Char} (h : unescapeChars cs = ds) (htilde : '~' ∉ ds)
    (hslash : '/' ∉ ds) : cs = ds := by
  fun_induction unescapeChars cs generalizing ds with
  | case1 cs ih =>
    subst h
    exact absurd List.mem_cons_self hslash
  | case2 cs ih =>
    subst h
    exact absurd List.mem_cons_self htilde
  | case3 c cs _ _ ih =>
    subst h
    rw [List.mem_cons, not_or] at htilde hslash
    exact congrArg (c :: ·) (ih rfl htilde.2 hslash.2)
  | case4 => exact h

theorem isDigit_of_mem_natText {n : Nat} {c : Char} (h : c ∈ natText n) : c.isDigit = true :=
  Nat.isDigit_of_mem_toDigits (by decide) (by decide) h

theorem not_mem_natText {n : Nat} {c : Char} (hc : c.isDigit = false) : c ∉ natText n := by
  intro h
  rw [isDigit_of_mem_natText h] at hc
  cases hc

/-- The first digit of a positive number is not zero. -/
theorem exists_natText {n : Nat} (h : n ≠ 0) :
    ∃ c cs, natText n = c :: cs ∧ '1' ≤ c ∧ c ≤ '9' := by
  induction n using Nat.strongRecOn with
  | ind n ih =>
    by_cases hn : n < 10
    · have hdigit : ∀ k < 10, k ≠ 0 → '1' ≤ k.digitChar ∧ k.digitChar ≤ '9' := by decide
      exact ⟨n.digitChar, [], Nat.toDigits_of_lt_base hn, hdigit n hn h⟩
    · obtain ⟨c, cs, hcs, hc⟩ := ih (n / 10) (by omega) (by omega)
      refine ⟨c, cs ++ [(n % 10).digitChar], ?_, hc⟩
      rw [natText, Nat.toDigits_of_base_le (by decide) (by omega), ← natText, hcs,
        List.cons_append]

/-- Indices are read back. -/
theorem indexChars?_natText {n : Nat} (h : n < UInt64.size) :
    indexChars? (natText n) = some n := by
  by_cases hn : n = 0
  · subst hn
    decide
  obtain ⟨c, cs, hcs, hone, hnine⟩ := exists_natText hn
  have hvalue : digitsValue (c :: cs) = n := by rw [← hcs, digitsValue_natText]
  have hall : cs.all Char.isDigit = true := by
    rw [List.all_eq_true]
    intro d hd
    exact isDigit_of_mem_natText (n := n) (hcs ▸ List.mem_cons_of_mem c hd)
  have hzero : c ≠ '0' := by
    rintro rfl
    exact absurd hone (by decide)
  rw [hcs, indexChars?]
  · rw [if_pos ⟨hone, hnine, hall, hvalue ▸ h⟩, hvalue]
  · exact fun hc _ => hzero hc

theorem tokens_eq_self {t : List Char} (h : '/' ∉ t) : tokens t = [t] := by
  induction t with
  | nil => rfl
  | cons c t ih =>
    rw [List.mem_cons, not_or] at h
    rw [tokens, if_neg (Ne.symm h.1), ih h.2]

theorem tokens_append_slash {t : List Char} (h : '/' ∉ t) (rest : List Char) :
    tokens (t ++ '/' :: rest) = t :: tokens rest := by
  induction t with
  | nil => simp [tokens]
  | cons c t ih =>
    rw [List.mem_cons, not_or] at h
    rw [List.cons_append, tokens, if_neg (Ne.symm h.1), ih h.2]

end Pointer

namespace Segment

/-- What is written for a segment, after the slash. -/
def token : Segment → List Char
  | name s => s.toList.flatMap escapeChar
  | index n => natText n

theorem pointer_eq (seg : Segment) : seg.pointer = '/' :: seg.token := by cases seg <;> rfl

theorem slash_not_mem_token (seg : Segment) : '/' ∉ seg.token := by
  cases seg with
  | name s =>
    rw [token, List.mem_flatMap]
    rintro ⟨c, -, hc⟩
    rw [escapeChar] at hc
    split_ifs at hc with htilde hslash
    · simp at hc
    · simp at hc
    · exact hslash (List.mem_singleton.1 hc).symm
  | index n => exact Pointer.not_mem_natText (by decide)

theorem token_eq_nil {seg : Segment} : seg.token = [] ↔ seg = name "" := by
  cases seg with
  | name s =>
    have hescape (c : Char) : escapeChar c ≠ [] := by
      rw [escapeChar]
      split_ifs <;> simp
    cases hs : s.toList with
    | nil => simp [token, ← String.toList_inj, hs]
    | cons c cs => simp [token, ← String.toList_inj, hs, hescape]
  | index n => simp [token, natText]

/-- **A token selects the part at its segment.** -/
theorem select?_token {v w : Json} {seg : Segment} (h : v.child? seg = some w)
    (hn : ∀ n, seg = index n → n < UInt64.size) :
    v.select? (Pointer.unescapeChars seg.token) = some w := by
  cases v with
  | object ms =>
    cases seg with
    | name s =>
      rw [token, Pointer.unescapeChars_escape, Json.select?, String.ofList_toList]
      exact h
    | index n => cases h
  | array xs =>
    cases seg with
    | name s => cases h
    | index n =>
      have htilde : '~' ∉ natText n := Pointer.not_mem_natText (by decide)
      rw [token, Pointer.unescapeChars_eq_self htilde, Json.select?,
        Pointer.indexChars?_natText (hn n rfl)]
      exact h
  | _ => cases h

end Segment

/-! ## Paths -/

theorem Pointer.tokens_pointer (seg : Segment) (p : Path) :
    tokens (seg.token ++ p.flatMap Segment.pointer) = seg.token :: p.map Segment.token := by
  induction p generalizing seg with
  | nil => simpa using tokens_eq_self seg.slash_not_mem_token
  | cons next p ih =>
    rw [List.flatMap_cons, Segment.pointer_eq, List.cons_append,
      tokens_append_slash seg.slash_not_mem_token, ih, List.map_cons]

namespace Path

/-- Indices of the path are below `2^64`, as those of all arrays in memory are. -/
def Addressable (p : Path) : Prop := ∀ n, .index n ∈ p → n < UInt64.size

/-- The path that the pointer of a path leads along: an empty name at the end is lost. -/
def pointed (p : Path) : Path := if p.getLast? = some (.name "") then p.dropLast else p

theorem Addressable.pointed {p : Path} (h : p.Addressable) : p.pointed.Addressable := by
  intro n hn
  rw [Path.pointed] at hn
  split at hn
  · exact h n ((List.dropLast_sublist p).mem hn)
  · exact h n hn

theorem at?_pointed {d v : Json} {p : Path} (h : d.at? p = some v) :
    ∃ w, d.at? p.pointed = some w := by
  rw [pointed]
  split
  · have hp : p = p.dropLast ++ [.name ""] := (List.dropLast_append_getLast? _ ‹_›).symm
    rw [hp, Json.at?_append] at h
    obtain ⟨w, hw, -⟩ := Option.bind_eq_some_iff.1 h
    exact ⟨w, hw⟩
  · exact ⟨v, h⟩

/-- Following the tokens of a path is going along the path. -/
theorem follow?_tokens {v w : Json} {p : Path} (h : v.at? p = some w) (hp : p.Addressable) :
    v.follow? (p.map Segment.token) = some w := by
  induction p generalizing v with
  | nil => exact h
  | cons seg p ih =>
    obtain ⟨u, hu, h⟩ := Option.bind_eq_some_iff.1 h
    have hseg := seg.select?_token hu fun n hn => hp n (hn ▸ List.mem_cons_self)
    rw [List.map_cons, Json.follow?, hseg]
    exact ih h fun n hn => hp n (List.mem_cons_of_mem seg hn)

/-- A pointer ends with a slash if its path ends with the empty name. -/
theorem dropSlash_pointer (p : Path) :
    Pointer.dropSlash (p.flatMap Segment.pointer) = p.pointed.flatMap Segment.pointer := by
  rcases List.eq_nil_or_concat p with rfl | ⟨q, seg, rfl⟩
  · rfl
  rw [List.concat_eq_append, pointed, List.getLast?_concat, List.dropLast_concat,
    List.flatMap_append, List.flatMap_singleton, Segment.pointer_eq, Pointer.dropSlash]
  by_cases hseg : seg = .name ""
  · rw [Segment.token_eq_nil.2 hseg, hseg, if_pos (by simp), if_pos rfl, List.dropLast_concat]
  · have hlast : (q.flatMap Segment.pointer ++ '/' :: seg.token).getLast? ≠ some '/' := by
      rw [List.getLast?_append, List.getLast?_cons]
      intro h
      obtain ⟨c, cs, hc⟩ := List.exists_cons_of_ne_nil (mt Segment.token_eq_nil.1 hseg)
      rw [Option.some_or, Option.some.injEq, List.getLast?_eq_some_getLast (by simp [hc]),
        Option.getD_some] at h
      exact seg.slash_not_mem_token (h ▸ List.getLast_mem _)
    rw [if_neg hlast, if_neg fun h => hseg (Option.some.inj h), List.flatMap_append,
      List.flatMap_singleton, Segment.pointer_eq]

end Path

/-! ## Looking pointers up -/

theorem Path.dropSign_pointer (p : Path) :
    Pointer.dropSign (p.flatMap Segment.pointer) = p.flatMap Segment.pointer := by
  cases p with
  | nil => rfl
  | cons seg p =>
    rw [List.flatMap_cons, Segment.pointer_eq]
    rfl

theorem Json.pointerChars?_pointer {d w : Json} {p : Path} (hw : d.at? p.pointed = some w)
    (hp : p.Addressable) : d.pointerChars? (p.flatMap Segment.pointer) = some w := by
  have haddr := hp.pointed
  rw [pointerChars?, Path.dropSign_pointer, Path.dropSlash_pointer]
  generalize p.pointed = q at hw haddr
  cases q with
  | nil => exact hw
  | cons seg q =>
    rw [List.flatMap_cons, Segment.pointer_eq, List.cons_append]
    simp only [if_true, Pointer.tokens_pointer]
    exact Path.follow?_tokens hw haddr

theorem Pointer.isPointer_pointer (p : Path) : isPointer (p.flatMap Segment.pointer) = true := by
  cases p with
  | nil => rfl
  | cons seg p =>
    rw [List.flatMap_cons, Segment.pointer_eq]
    rfl

/-- **The pointer of a path leads to the value at the path**, with a number sign or without. So does
a reference with a percent escape of the pointer, unless an object has the reference as its
identifier. If the path ends with the empty name, they lead to the value one segment before. -/
theorem Path.pointer_leads {d v : Json} {p : Path} (hv : d.at? p = some v) (hp : p.Addressable) :
    ∃ w, d.at? p.pointed = some w ∧ d.pointer? p.pointer = some w ∧
      d.pointer? ("#" ++ p.pointer) = some w ∧
        ∀ (e : String) (documents : Documents),
          percentDecode? e.toList = some p.pointer.toList → ¬d.HoldsId ("#" ++ e) →
            resolve? d documents ("#" ++ e) = some w := by
  obtain ⟨w, hw⟩ := at?_pointed hv
  have hchars : p.pointer.toList = p.flatMap Segment.pointer := String.toList_ofList
  have hlookup := Json.pointerChars?_pointer hw hp
  refine ⟨w, hw, ?_, ?_, fun e documents he hid => ?_⟩
  · rw [Json.pointer?, hchars, hlookup]
  · rw [Json.pointer?, String.toList_append, hchars, ← hlookup, Json.pointerChars?,
      Json.pointerChars?, dropSign_pointer]
    rfl
  · have htext : Pointer.dropSign ("#" ++ e).toList = e.toList := by
      rw [String.toList_append]
      rfl
    rw [resolve?, Json.findId?_eq_none_iff.2 hid]
    simp only [htext, he, Option.getD_some, hchars, Pointer.isPointer_pointer, cond_true]
    exact hlookup

/-- A document with names that look like escapes, and with an empty one. -/
def escaped : Json := .object
  [("a/b", .array [.null, .object [("~1%", .object [("", .bool true)]), ("id", .string "#/")]])]

/-- The way to the value under the empty name, the pointer of which ends with a slash. -/
def escapedPath : Path := [.name "a/b", .index 1, .name "~1%", .name ""]

theorem Path.pointer_leads_escaped :
    escaped.at? escapedPath = some (.bool true) ∧ escapedPath.Addressable ∧
      percentDecode? "/a~1b/1/~01%25/".toList = some escapedPath.pointer.toList ∧
      ¬escaped.HoldsId "#/a~1b/1/~01%25/" ∧
      escaped.pointer? escapedPath.pointer = some (.object [("", .bool true)]) ∧
      resolve? escaped [] "#/a~1b/1/~01%25/" = some (.object [("", .bool true)]) := by
  have hv : escaped.at? escapedPath = some (.bool true) := by decide +kernel
  have hp : escapedPath.Addressable := by
    intro n hn
    simp only [escapedPath, List.mem_cons, Segment.index.injEq, reduceCtorEq, List.not_mem_nil,
      or_false, false_or] at hn
    rw [hn]
    decide
  have he : percentDecode? "/a~1b/1/~01%25/".toList = some escapedPath.pointer.toList := by
    decide +kernel
  have hid : ¬escaped.HoldsId "#/a~1b/1/~01%25/" :=
    Json.findId?_eq_none_iff.1 (by decide +kernel)
  have hbefore : escaped.at? escapedPath.pointed = some (.object [("", .bool true)]) := by
    decide +kernel
  obtain ⟨w, hw, hpointer, -, hresolve⟩ := pointer_leads hv hp
  obtain rfl : .object [("", .bool true)] = w := Option.some.inj (hbefore.symm.trans hw)
  exact ⟨hv, hp, he, hid, hpointer, hresolve _ [] he hid⟩

end JsonSchema
