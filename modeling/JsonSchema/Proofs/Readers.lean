import JsonSchema.Regex.Parser
import Mathlib.Data.List.TakeWhile

/-!
# Readers in front of a closing parenthesis

A text is put between an opening part and the closing text `)$` to be matched as a whole. The
readers of escapes, classes, quantifiers and word edges take no parenthesis that is not theirs, so
they read the same whether the closing text follows or nothing does.

* `Regex.Stable`: readers that do so, and what is made of them;
* `Regex.Escape.read?_stable`, `Regex.read?_stable`: escapes and classes are read so;
* `Regex.quantify?_stable`, `Regex.readWordEdge?_stable`: quantifiers and word edges.
-/

namespace JsonSchema

namespace Regex

/-- What is written behind a pattern for whole texts. -/
def closing : List Char := [')', '$']

/-! ## Cutting texts -/

theorem length_closing : closing.length = 2 := rfl

/-- A suffix of a longer text that is no shorter than the closing text ends with it. -/
theorem exists_append_closing {cs mid rest : List Char} (h : mid <:+ cs ++ closing)
    (h' : rest ++ closing <:+ mid) : ∃ front, mid = front ++ closing := by
  have hlength : closing.length ≤ mid.length := by
    have := h'.length_le
    rw [List.length_append] at this
    omega
  obtain ⟨front, hfront⟩ :=
    List.suffix_of_suffix_length_le (List.suffix_append cs closing) h hlength
  exact ⟨front, hfront.symm⟩

theorem takeWhile_closing {p : Char → Bool} (hp : p ')' = false) (cs : List Char) :
    (cs ++ closing).takeWhile p = cs.takeWhile p := by
  induction cs with
  | nil => simp [closing, hp]
  | cons c cs ih =>
    rw [List.cons_append, List.takeWhile_cons, List.takeWhile_cons, ih]

theorem dropWhile_closing {p : Char → Bool} (hp : p ')' = false) (cs : List Char) :
    (cs ++ closing).dropWhile p = cs.dropWhile p ++ closing := by
  induction cs with
  | nil => simp [closing, hp]
  | cons c cs ih =>
    rw [List.cons_append, List.dropWhile_cons, List.dropWhile_cons, ih]
    split <;> rfl

theorem drop_takeWhile {p : Char → Bool} (cs : List Char) :
    cs.drop (cs.takeWhile p).length = cs.dropWhile p := by
  induction cs with
  | nil => rfl
  | cons c cs ih =>
    rw [List.takeWhile_cons, List.dropWhile_cons]
    split
    · exact ih
    · rfl

theorem head?_closing {c : Char} (hc : c ≠ ')') (cs : List Char) :
    (cs ++ closing).head? = some c ↔ cs.head? = some c := by
  cases cs with
  | nil => simp [closing, hc.symm]
  | cons d cs => rfl

/-- Up to a character that is not in the closing text: it stands in the text, or nowhere. -/
theorem cut_closing (c : Char) (hc : c ∉ closing) (cs : List Char) :
    (cs.dropWhile (· != c) = [] ∧ (cs ++ closing).dropWhile (· != c) = []) ∨
      (∃ rest, cs.dropWhile (· != c) = c :: rest ∧
        (cs ++ closing).dropWhile (· != c) = c :: (rest ++ closing) ∧
        (cs ++ closing).takeWhile (· != c) = cs.takeWhile (· != c)) := by
  induction cs with
  | nil =>
    refine .inl ⟨rfl, ?_⟩
    rw [List.nil_append, List.dropWhile_eq_nil_iff]
    intro d hd
    exact bne_iff_ne.2 fun h => hc (h ▸ hd)
  | cons d cs ih =>
    by_cases hd : d = c
    · subst hd
      exact .inr ⟨cs, by simp⟩
    · simpa [List.dropWhile_cons, List.takeWhile_cons, hd] using ih

/-! ## Readers -/

variable {α β : Type}

/-- The reader takes a part off the front of a text, and in front of the closing text it does so
as at the end. -/
structure Stable (f : List Char → Option (α × List Char)) : Prop where
  suffix {cs : List Char} {x : α} {rest : List Char} : f cs = some (x, rest) → rest <:+ cs
  closing_eq (cs : List Char) :
    f (cs ++ closing) = (f cs).map fun p => (p.1, p.2 ++ closing)

theorem readDecimal?_stable : Stable Escape.readDecimal? where
  suffix := by
    intro cs n rest h
    rw [Escape.readDecimal?] at h
    split at h
    · cases h
    · split at h
      · cases h
        exact List.dropWhile_suffix _
      · cases h
  closing_eq cs := by
    rw [Escape.readDecimal?, Escape.readDecimal?, takeWhile_closing (by decide),
      dropWhile_closing (by decide)]
    split
    · rfl
    · split <;> rfl

theorem hexNumber?_eq_none {cs : List Char} {c : Char} (hc : hexValue? c = none) (h : c ∈ cs) :
    Escape.hexNumber? cs = none := by
  have hfold (ds : List Char) :
      ds.foldl (fun n c => do return 16 * (← n) + (← hexValue? c)) (none : Option Nat) = none := by
    induction ds with
    | nil => rfl
    | cons d ds ih => exact ih
  obtain ⟨front, rest, rfl⟩ := List.append_of_mem h
  rw [Escape.hexNumber?, if_neg (by simp), List.foldl_append, List.foldl_cons, hc]
  cases front.foldl (fun n c => do return 16 * (← n) + (← hexValue? c)) (some 0) <;>
    exact hfold rest

theorem suffix_of_dropWhile {p : Char → Bool} {c : Char} {cs rest : List Char}
    (h : cs.dropWhile p = c :: rest) : rest <:+ cs :=
  (h ▸ List.suffix_cons c rest : rest <:+ cs.dropWhile p).trans (List.dropWhile_suffix p)

/-- A fixed number of hex digits, of which none stands in the closing text. -/
theorem readDigits_closing (width : Nat) (cs : List Char) :
    (if ((cs ++ closing).take width).length = width then do
      return (← Escape.charOfCode? (← Escape.hexNumber? ((cs ++ closing).take width)),
        (cs ++ closing).drop width)
    else none) =
    (if (cs.take width).length = width then do
      return (← Escape.charOfCode? (← Escape.hexNumber? (cs.take width)), cs.drop width)
    else none : Option (Char × List Char)).map fun p => (p.1, p.2 ++ closing) := by
  by_cases hwidth : width ≤ cs.length
  · rw [List.take_append_of_le_length hwidth, List.drop_append_of_le_length hwidth]
    split
    · cases Escape.hexNumber? (cs.take width) with
      | none => rfl
      | some n => cases h : Escape.charOfCode? n <;> simp [h]
    · rfl
  · have hmem : ')' ∈ (cs ++ closing).take width := by
      obtain ⟨k, hk⟩ := Nat.exists_eq_add_of_lt (Nat.lt_of_not_le hwidth)
      rw [hk, Nat.add_assoc, List.take_length_add_append]
      simp [closing]
    have hshort : (cs.take width).length ≠ width := by
      rw [List.length_take]
      omega
    rw [if_neg hshort, hexNumber?_eq_none (by decide) hmem]
    split <;> rfl

theorem readHex?_of_ne {width : Nat} {cs : List Char} (h : cs.head? ≠ some '\x7b') :
    Escape.readHex? width cs = if (cs.take width).length = width then do
      return (← Escape.charOfCode? (← Escape.hexNumber? (cs.take width)), cs.drop width)
    else none := by
  unfold Escape.readHex?
  split
  · exact absurd rfl h
  · rfl

theorem readHex?_stable (width : Nat) : Stable (Escape.readHex? width) where
  suffix := by
    intro cs c rest h
    unfold Escape.readHex? at h
    split at h
    · next cs =>
      rcases cut_closing '\x7d' (by decide) cs with ⟨hcs, -⟩ | ⟨tail, hcs, -, -⟩
      · simp [drop_takeWhile, hcs] at h
      · simp [drop_takeWhile, hcs, Option.bind_eq_some_iff] at h
        obtain ⟨-, n, -, d, -, rfl, rfl⟩ := h
        exact (suffix_of_dropWhile hcs).trans (List.suffix_cons _ _)
    · split at h
      · simp [Option.bind_eq_some_iff] at h
        obtain ⟨n, -, d, -, rfl, rfl⟩ := h
        exact List.drop_suffix _ _
      · cases h
  closing_eq cs := by
    by_cases hbrace : cs.head? = some '\x7b'
    · obtain ⟨cs, rfl⟩ := List.head?_eq_some_iff.1 hbrace
      simp only [List.cons_append, Escape.readHex?, drop_takeWhile]
      rcases cut_closing '\x7d' (by decide) cs with ⟨hcs, hclosing⟩ | ⟨tail, hcs, hclosing, htake⟩
      · simp [hcs, hclosing]
      · simp only [hcs, hclosing, htake]
        split
        · rfl
        · cases Escape.hexNumber? (cs.takeWhile (· != '\x7d')) with
          | none => rfl
          | some n => cases h : Escape.charOfCode? n <;> simp [h]
    · have hclosing := fun h => hbrace ((head?_closing (by decide) cs).1 h)
      rw [readHex?_of_ne hbrace, readHex?_of_ne hclosing]
      exact readDigits_closing width cs

theorem readProperty?_stable : Stable Escape.readProperty? where
  suffix := by
    intro cs s rest h
    unfold Escape.readProperty? at h
    split at h
    · next cs =>
      rcases cut_closing '\x7d' (by decide) cs with ⟨hcs, -⟩ | ⟨tail, hcs, -, -⟩
      · simp [drop_takeWhile, hcs] at h
      · simp [drop_takeWhile, hcs, Option.bind_eq_some_iff] at h
        obtain ⟨s, -, rfl, rfl⟩ := h
        exact (suffix_of_dropWhile hcs).trans (List.suffix_cons _ _)
    · simp [Option.bind_eq_some_iff] at h
      obtain ⟨s, -, rfl, rfl⟩ := h
      exact List.suffix_cons _ _
    · cases h
  closing_eq cs := by
    match cs with
    | [] => decide
    | c :: cs =>
      by_cases hc : c = '\x7b'
      · subst hc
        simp only [List.cons_append, Escape.readProperty?, drop_takeWhile]
        rcases cut_closing '\x7d' (by decide) cs with
          ⟨hcs, hclosing⟩ | ⟨tail, hcs, hclosing, htake⟩
        · simp [hcs, hclosing]
        · simp only [hcs, hclosing, htake]
          cases Escape.property? (String.ofList (cs.takeWhile (· != '\x7d'))) <;> rfl
      · have hletter (ds : List Char) : Escape.readProperty? (c :: ds) =
            (Escape.property? (String.singleton c)).map fun s => (s, ds) := by
          unfold Escape.readProperty?
          split
          · simp_all
          · next heq =>
            obtain ⟨rfl, rfl⟩ := List.cons.inj heq
            cases Escape.property? _ <;> rfl
          · simp_all
        rw [List.cons_append, hletter, hletter]
        cases Escape.property? _ <;> rfl

theorem Stable.map {γ : Type} {f : List Char → Option (α × List Char)} (h : Stable f) (g : α → γ) :
    Stable fun cs => (f cs).map fun (x, cs) => (g x, cs) where
  suffix := by
    intro cs y rest hy
    obtain ⟨⟨x, _⟩, hx, ⟨⟩⟩ := Option.map_eq_some_iff.1 hy
    exact h.suffix hx
  closing_eq cs := by
    rw [h.closing_eq]
    cases f cs <;> rfl

theorem Stable.returns (x : α) : Stable fun cs => some (x, cs) where
  suffix := by
    intro cs y rest h
    cases h
    exact List.suffix_rfl
  closing_eq _ := rfl

theorem Stable.fails : Stable fun _ => (none : Option (α × List Char)) where
  suffix := nofun
  closing_eq _ := rfl

theorem Stable.bind {f : List Char → Option (α × List Char)}
    {g : α → List Char → Option (β × List Char)} (hf : Stable f) (hg : ∀ x, Stable (g x)) :
    Stable fun cs => (f cs).bind fun (x, cs) => g x cs where
  suffix := by
    intro cs y rest hy
    obtain ⟨⟨x, mid⟩, hx, hy⟩ := Option.bind_eq_some_iff.1 hy
    exact ((hg x).suffix hy).trans (hf.suffix hx)
  closing_eq cs := by
    rw [hf.closing_eq]
    cases f cs with
    | none => rfl
    | some p => exact (hg p.1).closing_eq p.2

/-- A reader that depends on whether another one reads something. -/
theorem Stable.elim {f : List Char → Option (α × List Char)}
    {g : α → List Char → Option (β × List Char)} {h : List Char → Option (β × List Char)}
    (hf : Stable f) (hg : ∀ x, Stable (g x)) (hh : Stable h) :
    Stable fun cs => (f cs).elim (h cs) fun p => g p.1 p.2 where
  suffix := by
    intro cs y rest hy
    cases hx : f cs with
    | none =>
      rw [hx] at hy
      exact hh.suffix hy
    | some p =>
      rw [hx] at hy
      exact ((hg p.1).suffix hy).trans (hf.suffix hx)
  closing_eq cs := by
    rw [hf.closing_eq]
    cases f cs with
    | none => exact hh.closing_eq cs
    | some p => exact (hg p.1).closing_eq p.2

/-- A reader that depends on whether a certain character comes first. -/
theorem Stable.ifHead {f g : List Char → Option (α × List Char)} {c : Char} (hc : c ≠ ')')
    (hf : Stable f) (hg : Stable g) :
    Stable fun cs => if cs.head? = some c then f cs.tail else g cs where
  suffix := by
    intro cs x rest h
    split at h
    · exact (hf.suffix h).trans (List.tail_suffix cs)
    · exact hg.suffix h
  closing_eq cs := by
    by_cases hhead : cs.head? = some c
    · obtain ⟨cs, rfl⟩ := List.head?_eq_some_iff.1 hhead
      simpa using hf.closing_eq cs
    · rw [if_neg hhead, if_neg fun h => hhead ((head?_closing hc cs).1 h), hg.closing_eq]

/-- What the letter after a backslash starts. -/
theorem Escape.read?_stable (f : Flags) (c : Char) :
    Stable fun cs => Escape.read? f (c :: cs) := by
  by_cases hp : c = 'p'
  · subst hp
    exact readProperty?_stable.map fun s => Escape.set (f.set s)
  by_cases hP : c = 'P'
  · subst hP
    exact readProperty?_stable.map fun s => Escape.set (.complement (f.set s))
  by_cases hx : c = 'x'
  · subst hx
    exact (readHex?_stable 2).map Escape.code
  by_cases hu : c = 'u'
  · subst hu
    exact (readHex?_stable 4).map Escape.code
  by_cases hU : c = 'U'
  · subst hU
    exact (readHex?_stable 8).map Escape.code
  obtain ⟨e, he⟩ : ∃ e : Option Escape, ∀ cs,
      Escape.read? f (c :: cs) = e.map fun e => (e, cs) := by
    refine ⟨(Escape.read? f [c]).map Prod.fst, fun cs => ?_⟩
    unfold Escape.read?
    split <;> try simp_all
    cases Escape.controlChar? _ with
    | some d => rfl
    | none =>
      simp only
      split <;> rfl
  simp only [he]
  cases e with
  | none => exact .fails
  | some e => exact .returns e

theorem Escape.read?_length {f : Flags} {cs rest : List Char} {e : Escape}
    (h : Escape.read? f cs = some (e, rest)) : rest.length < cs.length := by
  cases cs with
  | nil => cases h
  | cons c cs => exact Nat.lt_succ_of_le ((Escape.read?_stable f c).suffix h).length_le

/-! ## Classes -/

namespace Class

open JsonSchema.Class (readTokens?)

theorem readTokens?_suffix {f : Flags} {fuel nested : Nat} {cs rest : List Char}
    {ts : List Class.Token} (h : readTokens? f fuel nested cs = some (ts, rest)) : rest <:+ cs := by
  induction fuel generalizing nested cs ts with
  | zero => cases h
  | succ fuel ih =>
    unfold readTokens? at h
    split at h
    · cases h
    · cases h
      exact List.suffix_cons _ _
    · simp [Option.bind_eq_some_iff] at h
      obtain ⟨ts, h, rfl⟩ := h
      exact (ih h).trans (List.suffix_cons _ _)
    · simp [Option.bind_eq_some_iff] at h
      obtain ⟨ts, h, rfl⟩ := h
      exact (ih h).trans (List.suffix_cons _ _)
    · next cs =>
      simp [Option.bind_eq_some_iff] at h
      obtain ⟨e, mid, he, ts, h, rfl⟩ := h
      cases cs with
      | nil => cases he
      | cons c cs =>
        have hmid := (Escape.read?_stable f c).suffix he
        exact ((ih h).trans hmid).trans ((List.suffix_cons _ _).trans (List.suffix_cons _ _))
    · simp [Option.bind_eq_some_iff] at h
      obtain ⟨ts, h, rfl⟩ := h
      exact (ih h).trans (List.suffix_cons _ _)

/-- The closing text closes no class. -/
theorem readTokens?_closing_nil (f : Flags) (fuel nested : Nat) :
    readTokens? f fuel nested closing = none := by
  match fuel with
  | 0 => rfl
  | 1 => simp [closing, readTokens?]
  | 2 => simp [closing, readTokens?]
  | fuel + 3 => simp [closing, readTokens?]

/-- After a backslash the parenthesis is taken for one of the class, and the class is not closed. -/
theorem readTokens?_escape_closing (f : Flags) (fuel nested : Nat) :
    readTokens? f (fuel + 1) nested ('\\' :: closing) = none := by
  have hsign : readTokens? f fuel nested ['$'] = none := by
    match fuel with
    | 0 => rfl
    | 1 => simp [readTokens?]
    | fuel + 2 => simp [readTokens?]
  have hparen : Escape.read? f closing = some (.literal ')', ['$']) := by
    simp [closing, Escape.read?, Escape.controlChar?, Escape.isConditionLetter]
  simp [readTokens?, hparen, hsign]

/-- A character that neither opens nor closes nor escapes stands for itself. -/
theorem readTokens?_plain {f : Flags} {fuel nested : Nat} {c : Char} {cs : List Char}
    (hclose : c ≠ ']') (hopen : c ≠ '[') (hescape : c ≠ '\\') :
    readTokens? f (fuel + 1) nested (c :: cs) =
      (readTokens? f fuel nested cs).map fun p => (.plain c :: p.1, p.2) := by
  conv => lhs; unfold readTokens?
  split <;> try simp_all
  cases readTokens? f fuel _ _ <;> rfl

theorem readTokens?_closing (f : Flags) {fuel fuel' nested : Nat} {cs : List Char}
    (hfuel : cs.length < fuel) (hfuel' : cs.length + 2 < fuel') :
    readTokens? f fuel' nested (cs ++ closing) =
      (readTokens? f fuel nested cs).map fun p => (p.1, p.2 ++ closing) := by
  induction fuel generalizing fuel' nested cs with
  | zero => omega
  | succ fuel ih =>
    obtain ⟨fuel', rfl⟩ : ∃ k, fuel' = k + 1 := ⟨fuel' - 1, by omega⟩
    cases cs with
    | nil =>
      rw [List.nil_append, readTokens?_closing_nil]
      rfl
    | cons c cs =>
      rw [List.length_cons] at hfuel hfuel'
      have hrest (nested : Nat) : readTokens? f fuel' nested (cs ++ closing) = _ :=
        ih (by omega) (by omega)
      rw [List.cons_append]
      by_cases hclose : c = ']'
      · subst hclose
        cases nested with
        | zero => simp [readTokens?]
        | succ nested =>
          simp only [readTokens?, hrest]
          cases readTokens? f fuel nested cs <;> rfl
      by_cases hopen : c = '['
      · subst hopen
        simp only [readTokens?, hrest]
        cases readTokens? f fuel (nested + 1) cs <;> rfl
      by_cases hescape : c = '\\'
      · subst hescape
        cases cs with
        | nil =>
          rw [List.nil_append, readTokens?_escape_closing]
          rfl
        | cons d cs =>
          simp only [readTokens?]
          rw [List.cons_append, (Escape.read?_stable f d).closing_eq]
          cases he : Escape.read? f (d :: cs) with
          | none => rfl
          | some p =>
            obtain ⟨e, mid⟩ := p
            have := Escape.read?_length he
            rw [List.length_cons] at *
            have hmid : readTokens? f fuel' nested (mid ++ closing) = _ :=
              ih (by omega) (by omega)
            simp [hmid]
            cases readTokens? f fuel nested mid <;> rfl
      rw [readTokens?_plain hclose hopen hescape, readTokens?_plain hclose hopen hescape, hrest]
      cases readTokens? f fuel nested cs <;> rfl

theorem splitOpening_suffix (cs : List Char) : (Class.splitOpening cs).2 <:+ cs := by
  unfold Class.splitOpening
  split
  · exact (List.suffix_cons _ _).trans (List.suffix_cons _ _)
  · exact List.suffix_cons _ _
  · exact List.suffix_cons _ _
  · exact List.suffix_rfl

theorem splitOpening_closing (cs : List Char) :
    Class.splitOpening (cs ++ closing) =
      ((Class.splitOpening cs).1, (Class.splitOpening cs).2 ++ closing) := by
  match cs with
  | [] => rfl
  | [c] =>
    unfold Class.splitOpening
    split <;> simp_all [closing]
  | c :: d :: cs =>
    by_cases hcaret : c = '^'
    · by_cases hd : d = ']' <;> simp [Class.splitOpening, hcaret, hd]
    · by_cases hc : c = ']' <;> simp [Class.splitOpening, hcaret, hc]

theorem read?_stable (f : Flags) : Stable (Class.read? f) where
  suffix := by
    intro cs s rest h
    rw [Class.read?] at h
    obtain ⟨⟨ts, mid⟩, hts, h⟩ := Option.bind_eq_some_iff.1 h
    simp only at h
    obtain ⟨⟨s, left⟩, hs, h⟩ := Option.bind_eq_some_iff.1 h
    split at h
    · cases h
      exact (readTokens?_suffix hts).trans (splitOpening_suffix cs)
    · cases h
  closing_eq cs := by
    rw [Class.read?, Class.read?, splitOpening_closing]
    simp only
    rw [readTokens?_closing f (Nat.lt_succ_self _) (by simp [length_closing])]
    cases readTokens? f ((Class.splitOpening cs).2.length + 1) 0 (Class.splitOpening cs).2 with
    | none => rfl
    | some p =>
      simp only [Option.map_some, Option.bind_eq_bind, Option.bind_some]
      cases Class.readItems? f _ _ _ _ with
      | none => rfl
      | some q =>
        obtain ⟨s, left⟩ := q
        cases left <;> rfl

end Class

/-! ## Quantifiers -/

theorem head?_ne {c : Char} {cs : List Char} (h : ∀ ds, cs ≠ c :: ds) : cs.head? ≠ some c := by
  intro hhead
  obtain ⟨ds, hds⟩ := List.head?_eq_some_iff.1 hhead
  exact h ds hds

/-- The upper bound of a quantifier after the comma. -/
def readMost? (least : Nat) (cs : List Char) : Option ((Nat × Option Nat) × List Char) :=
  (Escape.readDecimal? cs).elim
    (if cs.head? = some '\x7d' then some ((least, none), cs.tail) else none)
    fun (most, cs) =>
      if cs.head? = some '\x7d' then
        some ((least, if most + 1 = Escape.numberLimit then none else some most), cs.tail)
      else none

/-- What follows the lower bound of a quantifier. -/
def readUpper? (least : Nat) (cs : List Char) : Option ((Nat × Option Nat) × List Char) :=
  if cs.head? = some '\x7d' then some ((least, some least), cs.tail)
  else if cs.head? = some ',' then readMost? least cs.tail
  else none

theorem readMost?_stable (least : Nat) : Stable (readMost? least) := by
  have hmost (n : Nat) : Stable fun cs =>
      if cs.head? = some '\x7d' then
        some ((least, if n + 1 = Escape.numberLimit then none else some n), cs.tail)
      else none :=
    .ifHead (by decide) (.returns _) .fails
  have hopen : Stable fun cs =>
      if cs.head? = some '\x7d' then some ((least, (none : Option Nat)), cs.tail) else none :=
    .ifHead (by decide) (.returns _) .fails
  exact readDecimal?_stable.elim hmost hopen

theorem readUpper?_stable (least : Nat) : Stable (readUpper? least) :=
  .ifHead (by decide) (.returns _) (.ifHead (by decide) (readMost?_stable least) .fails)

theorem readUpper?_eq (least : Nat) (cs : List Char) :
    (match cs with
    | '\x7d' :: cs => pure ((least, some least), cs)
    | ',' :: cs =>
      match Escape.readDecimal? cs, cs with
      | some (most, '\x7d' :: cs), _ =>
        pure ((least, if most + 1 = Escape.numberLimit then none else some most), cs)
      | some _, _ => none
      | none, '\x7d' :: cs => pure ((least, none), cs)
      | none, _ => none
    | _ => none) = readUpper? least cs := by
  rw [readUpper?]
  split
  · simp
  · rw [if_neg (by simp), if_pos (by simp), readMost?, List.tail_cons]
    split
    · next h => simp [h]
    · next p hne h => simp [h, head?_ne fun ds hds => hne p.1 ds (Prod.ext rfl hds)]
    · next h => simp [h]
    · next hne h => simp [h, head?_ne hne]
  · next hbrace hcomma => rw [if_neg (head?_ne hbrace), if_neg (head?_ne hcomma)]

theorem readBounds?_eq (cs : List Char) :
    readBounds? cs =
      (if cs.head? = some ',' then some (0, cs) else Escape.readDecimal? cs).bind
        fun (least, cs) => readUpper? least cs := by
  unfold readBounds?
  split
  · next ds =>
    rw [List.head?_cons, if_pos rfl]
    exact readUpper?_eq 0 (',' :: ds)
  · next hne =>
    rw [if_neg (head?_ne hne)]
    cases Escape.readDecimal? cs with
    | none => rfl
    | some p => exact readUpper?_eq p.1 p.2

theorem readBounds?_stable : Stable readBounds? := by
  have hleast : Stable fun cs =>
      if cs.head? = some ',' then some (0, cs) else Escape.readDecimal? cs := by
    constructor
    · intro cs n rest h
      split at h
      · cases h
        exact List.suffix_rfl
      · exact readDecimal?_stable.suffix h
    · intro cs
      simp only [head?_closing (show ',' ≠ ')' by decide)]
      split
      · rfl
      · exact readDecimal?_stable.closing_eq cs
  simpa only [← readBounds?_eq] using hleast.bind readUpper?_stable

theorem readQuantifier?_stable : Stable readQuantifier? := by
  have heq (cs : List Char) : readQuantifier? cs =
      if cs.head? = some '?' then some ((0, some 1), cs.tail)
      else if cs.head? = some '*' then some ((0, none), cs.tail)
      else if cs.head? = some '+' then some ((1, none), cs.tail)
      else if cs.head? = some '\x7b' then readBounds? cs.tail
      else none := by
    unfold readQuantifier?
    split <;> simp_all [head?_ne]
  have hbrace : Stable fun cs => if cs.head? = some '\x7b' then readBounds? cs.tail else none :=
    .ifHead (by decide) readBounds?_stable .fails
  simpa only [← heq] using Stable.ifHead (c := '?') (by decide) (.returns (0, some 1))
    (Stable.ifHead (c := '*') (by decide) (.returns (0, none))
      (Stable.ifHead (c := '+') (by decide) (.returns (1, none)) hbrace))

/-- What may follow the bounds of a quantifier. -/
def readMarks? (a : Regex) (bounds : Nat × Option Nat) (cs : List Char) :
    Option (Regex × List Char) :=
  if !repeatable a then none
  else if cs.head? = some '?' then readPossessive? (loop a bounds.1 bounds.2 false) cs.tail
  else readPossessive? (loop a bounds.1 bounds.2 true) cs
where
  readPossessive? (b : Regex) (cs : List Char) : Option (Regex × List Char) :=
    if cs.head? = some '+' then some (atomic b, cs.tail) else some (b, cs)

theorem readMarks?_stable (a : Regex) (bounds : Nat × Option Nat) :
    Stable (readMarks? a bounds) := by
  have hpossessive (b : Regex) : Stable (readMarks?.readPossessive? b) :=
    .ifHead (by decide) (.returns _) (.returns _)
  unfold readMarks?
  split
  · exact .fails
  · exact .ifHead (by decide) (hpossessive _) (hpossessive _)

/-- Whether a quantifier is greedy, by the mark behind it. -/
def cutLazy (cs : List Char) : Bool × List Char :=
  match cs with
  | '?' :: cs => (false, cs)
  | cs => (true, cs)

theorem cutLazy_of_ne {cs : List Char} (h : cs.head? ≠ some '?') : cutLazy cs = (true, cs) := by
  unfold cutLazy
  split
  · exact absurd rfl h
  · rfl

/-- A loop, atomic by the mark behind it. -/
def cutPossessive (b : Regex) (cs : List Char) : Option (Regex × List Char) :=
  match cs with
  | '+' :: cs => some (atomic b, cs)
  | cs => some (b, cs)

theorem cutPossessive_eq (b : Regex) (cs : List Char) :
    cutPossessive b cs = readMarks?.readPossessive? b cs := by
  unfold cutPossessive readMarks?.readPossessive?
  split
  · rfl
  · next hne => rw [if_neg (head?_ne hne)]

theorem quantify?_eq (a : Regex) (cs : List Char) :
    quantify? a cs =
      (readQuantifier? cs).elim (some (a, cs)) fun p => readMarks? a p.1 p.2 := by
  unfold quantify?
  cases readQuantifier? cs with
  | none => rfl
  | some p =>
    obtain ⟨⟨least, most⟩, mid⟩ := p
    simp only [readMarks?]
    split
    · rfl
    · rw [Option.elim_some]
      by_cases hlazy : mid.head? = some '?'
      · obtain ⟨ds, rfl⟩ := List.head?_eq_some_iff.1 hlazy
        exact cutPossessive_eq _ ds
      · rw [if_neg hlazy, ← cutPossessive_eq]
        exact congrArg (fun p => cutPossessive (loop a least most p.1) p.2) (cutLazy_of_ne hlazy)

theorem quantify?_stable (a : Regex) : Stable (quantify? a) := by
  have h := readQuantifier?_stable.elim (readMarks?_stable a) (.returns a)
  simpa only [← quantify?_eq] using h

/-! ## Names -/

theorem readName?_suffix {close : Char} {cs rest : List Char} {name : String}
    (h : readName? close cs = some (name, rest)) : rest <:+ cs := by
  unfold readName? at h
  simp only [drop_takeWhile] at h
  split at h
  · cases h
  · next hcs _ =>
    split at h
    · cases h
      exact suffix_of_dropWhile hcs
    · cases h
  · cases h

/-- The kind of edge that a name stands for. -/
def edgeNamed? (name : String) : Option Anchor :=
  match name with
  | "start" => some .wordStart
  | "end" => some .wordEnd
  | "start-half" => some .noWordBefore
  | "end-half" => some .noWordAfter
  | _ => none

theorem readWordEdge?_brace (cs : List Char) :
    readWordEdge? ('\x7b' :: cs) =
      if (readBounds? cs).isSome then some (.wordEdge, '\x7b' :: cs)
      else if cs.dropWhile (· != '\x7d') = [] then none
      else (edgeNamed? (String.ofList (cs.takeWhile (· != '\x7d')))).map
        fun k => (k, (cs.dropWhile (· != '\x7d')).tail) := by
  rw [readWordEdge?]
  simp only [drop_takeWhile]
  split
  · rfl
  · generalize String.ofList (cs.takeWhile (· != '\x7d')) = name
    cases cs.dropWhile (· != '\x7d') with
    | nil => simp
    | cons d rest =>
      unfold edgeNamed?
      simp only [reduceCtorEq, if_false, List.tail_cons]
      split <;> simp_all

theorem readWordEdge?_of_ne {cs : List Char} (h : cs.head? ≠ some '\x7b') :
    readWordEdge? cs = some (.wordEdge, cs) := by
  unfold readWordEdge?
  split
  · simp at h
  · rfl

theorem readWordEdge?_stable : Stable readWordEdge? where
  suffix := by
    intro cs k rest h
    by_cases hbrace : cs.head? = some '\x7b'
    · obtain ⟨cs, rfl⟩ := List.head?_eq_some_iff.1 hbrace
      rw [readWordEdge?_brace] at h
      split at h
      · cases h
        exact List.suffix_rfl
      · split at h
        · cases h
        · obtain ⟨k, -, h⟩ := Option.map_eq_some_iff.1 h
          cases h
          exact ((List.tail_suffix _).trans (List.dropWhile_suffix _)).trans (List.suffix_cons _ _)
    · rw [readWordEdge?_of_ne hbrace] at h
      cases h
      exact List.suffix_rfl
  closing_eq cs := by
    by_cases hbrace : cs.head? = some '\x7b'
    · obtain ⟨cs, rfl⟩ := List.head?_eq_some_iff.1 hbrace
      rw [List.cons_append, readWordEdge?_brace, readWordEdge?_brace,
        readBounds?_stable.closing_eq, Option.isSome_map]
      split
      · rfl
      · rcases cut_closing '\x7d' (by decide) cs with
          ⟨hcs, hclosing⟩ | ⟨tail, hcs, hclosing, htake⟩
        · rw [if_pos hcs, if_pos hclosing]
          rfl
        · simp only [hcs, hclosing, htake, reduceCtorEq, if_false, List.tail_cons, Option.map_map]
          rfl
    · rw [readWordEdge?_of_ne hbrace,
        readWordEdge?_of_ne fun h => hbrace ((head?_closing (by decide) cs).1 h)]
      rfl

end Regex

end JsonSchema
