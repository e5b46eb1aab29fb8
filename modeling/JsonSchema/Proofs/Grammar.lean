import JsonSchema.Proofs.Readers

/-!
# Reading patterns in front of a closing parenthesis

The readers of whole parts of a pattern may go on into what is written behind it: a quantifier or
an alternative may follow, and a parenthesis closes a group. But as long as such a reader leaves
the closing text it reads in front of it what it reads at the end of the text.

* `Regex.Local`: readers that do so, and what is made of them;
* `Regex.alternatives?_local`, `Regex.group?_local`: alternatives and groups are read so.
-/

namespace JsonSchema

namespace Regex

variable {α β γ : Type}

/-! ## Readers that may read on -/

/-- The reader takes a part off the front of a text. In front of the closing text it reads what it
reads at the end, as long as it leaves that text. -/
structure Local (f : List Char → Option (α × List Char)) : Prop where
  suffix {cs : List Char} {x : α} {rest : List Char} : f cs = some (x, rest) → rest <:+ cs
  closing_iff {cs : List Char} {x : α} {rest : List Char} :
    f (cs ++ closing) = some (x, rest ++ closing) ↔ f cs = some (x, rest)

theorem Stable.local {f : List Char → Option (α × List Char)} (h : Stable f) : Local f where
  suffix := h.suffix
  closing_iff := by
    intro cs x rest
    rw [h.closing_eq, Option.map_eq_some_iff]
    constructor
    · rintro ⟨⟨y, mid⟩, hy, heq⟩
      obtain ⟨hxy, hmid⟩ := Prod.mk.inj heq
      rw [hy, ← List.append_cancel_right hmid, ← hxy]
    · intro hx
      exact ⟨(x, rest), hx, rfl⟩

theorem Local.bind {f : List Char → Option (α × List Char)}
    {g : α → List Char → Option (β × List Char)} (hf : Local f) (hg : ∀ x, Local (g x)) :
    Local fun cs => (f cs).bind fun (x, cs) => g x cs where
  suffix := by
    intro cs y rest hy
    obtain ⟨⟨x, mid⟩, hx, hy⟩ := Option.bind_eq_some_iff.1 hy
    exact ((hg x).suffix hy).trans (hf.suffix hx)
  closing_iff := by
    intro cs y rest
    rw [Option.bind_eq_some_iff, Option.bind_eq_some_iff]
    constructor
    · rintro ⟨⟨x, mid⟩, hx, hy⟩
      obtain ⟨front, rfl⟩ := exists_append_closing (hf.suffix hx) ((hg x).suffix hy)
      exact ⟨(x, front), hf.closing_iff.1 hx, (hg x).closing_iff.1 hy⟩
    · rintro ⟨⟨x, mid⟩, hx, hy⟩
      exact ⟨(x, mid ++ closing), hf.closing_iff.2 hx, (hg x).closing_iff.2 hy⟩

theorem Local.returns (x : α) : Local fun cs => some (x, cs) := (Stable.returns x).local

theorem Local.fails : Local fun _ => (none : Option (α × List Char)) := Stable.fails.local

theorem Local.map {f : List Char → Option (α × List Char)} (h : Local f) (g : α → β) :
    Local fun cs => (f cs).map fun (x, cs) => (g x, cs) := by
  have hbind := h.bind fun x => Local.returns (g x)
  have heq (cs : List Char) : ((f cs).map fun (x, cs) => (g x, cs)) =
      (f cs).bind fun (x, cs) => some (g x, cs) := by
    cases f cs <;> rfl
  simpa only [heq] using hbind

theorem Local.ifHead {f g : List Char → Option (α × List Char)} {c : Char} (hc : c ≠ ')')
    (hf : Local f) (hg : Local g) :
    Local fun cs => if cs.head? = some c then f cs.tail else g cs where
  suffix := by
    intro cs x rest h
    split at h
    · exact (hf.suffix h).trans (List.tail_suffix cs)
    · exact hg.suffix h
  closing_iff := by
    intro cs x rest
    by_cases hhead : cs.head? = some c
    · obtain ⟨cs, rfl⟩ := List.head?_eq_some_iff.1 hhead
      simpa using hf.closing_iff
    · rw [if_neg hhead, if_neg fun h => hhead ((head?_closing hc cs).1 h)]
      exact hg.closing_iff

theorem Local.elim {f : List Char → Option (α × List Char)}
    {g : α → List Char → Option (β × List Char)} {h : List Char → Option (β × List Char)}
    (hf : Stable f) (hg : ∀ x, Local (g x)) (hh : Local h) :
    Local fun cs => (f cs).elim (h cs) fun p => g p.1 p.2 where
  suffix := by
    intro cs y rest hy
    cases hx : f cs with
    | none =>
      rw [hx] at hy
      exact hh.suffix hy
    | some p =>
      rw [hx] at hy
      exact ((hg p.1).suffix hy).trans (hf.suffix hx)
  closing_iff := by
    intro cs y rest
    rw [hf.closing_eq]
    cases f cs with
    | none => exact hh.closing_iff
    | some p => exact (hg p.1).closing_iff

/-- A reader that always takes at least one character. -/
theorem Local.ofCons {f : List Char → Option (α × List Char)} (hnil : f [] = none)
    (h : ∀ c, Local fun cs => f (c :: cs)) : Local f where
  suffix := by
    intro cs x rest hx
    cases cs with
    | nil => simp [hnil] at hx
    | cons c cs => exact ((h c).suffix hx).trans (List.suffix_cons c cs)
  closing_iff := by
    intro cs x rest
    cases cs with
    | nil =>
      rw [hnil, List.nil_append]
      constructor
      · intro hx
        have hlength := ((h ')').suffix hx).length_le
        simp [length_closing] at hlength
      · exact nofun
    | cons c cs => exact (h c).closing_iff

/-! ## Atoms -/

/-- What is read of a text, apart from its rest. -/
def parted (f : List Char → Option (α × β × List Char)) (cs : List Char) :
    Option ((α × β) × List Char) :=
  (f cs).map fun (x, y, cs) => ((x, y), cs)

theorem parted_eq_some {f : List Char → Option (α × β × List Char)} {cs rest : List Char} {x : α}
    {y : β} : parted f cs = some ((x, y), rest) ↔ f cs = some (x, y, rest) := by
  rw [parted, Option.map_eq_some_iff]
  constructor
  · rintro ⟨⟨x, y, rest⟩, h, ⟨⟩⟩
    exact h
  · intro h
    exact ⟨_, h, rfl⟩

theorem readName?_local (close : Char) : Local (readName? close) where
  suffix := readName?_suffix
  closing_iff := by
    intro cs name rest
    have hparen : isNameChar ')' = false := by decide +kernel
    unfold readName?
    simp only [drop_takeWhile]
    simp only [takeWhile_closing hparen, dropWhile_closing hparen]
    cases cs.takeWhile isNameChar with
    | nil => simp
    | cons c letters =>
      cases cs.dropWhile isNameChar with
      | nil =>
        -- the closing parenthesis may end the name, but then it is not left
        simp [closing]
        intro _ _ h
        have hlength := congrArg List.length h
        simp at hlength
      | cons d rest => simp

theorem repeatNamed?_local (name : String) (r : Reading) :
    Local (parted (repeatNamed? name r)) := by
  have heq : parted (repeatNamed? name r) = fun cs =>
      (r.names.lookup name).elim none fun index => some (repeatGroup index r, cs) := by
    funext cs
    rw [parted, repeatNamed?]
    cases r.names.lookup name <;> rfl
  rw [heq]
  cases r.names.lookup name with
  | none => exact .fails
  | some index => exact .returns _

/-- What an escape stands for as an atom. -/
def ofEscape (f : Flags) : Escape → Regex
  | .code c => one (f.set (.single c))
  | .literal c => char c
  | .set s | .inner s => one s

theorem readEscape?_eq (r : Reading) (cs : List Char) :
    parted (readEscape? r) cs =
      if cs.head? = some 'A' then some ((anchor .textStart, r), cs.tail)
      else if cs.head? = some 'z' then some ((anchor .textEnd, r), cs.tail)
      else if cs.head? = some 'b' then
        (readWordEdge? cs.tail).map fun (k, cs) => ((anchor k, r), cs)
      else if cs.head? = some 'B' then some ((anchor .noWordEdge, r), cs.tail)
      else if cs.head? = some '<' then some ((anchor .wordStart, r), cs.tail)
      else if cs.head? = some '>' then some ((anchor .wordEnd, r), cs.tail)
      else if cs.head? = some 'k' then
        if cs.tail.head? = some '<' then
          (readName? '>' cs.tail.tail).bind fun (name, cs) => parted (repeatNamed? name r) cs
        else none
      else if cs.head? = some 'K' then none
      else if cs.head? = some 'G' then none
      else (Escape.readDecimal? cs).elim
        ((Escape.read? r.flags cs).map fun (e, cs) => ((ofEscape r.flags e, r), cs))
        fun (index, cs) => some (repeatGroup index { r with numbered := true }, cs) := by
  unfold parted readEscape?
  split
  · rfl
  · rfl
  · rename_i cs
    have hedge : parted (fun cs => (readWordEdge? cs).map fun (k, cs) => (anchor k, r, cs)) cs =
        (readWordEdge? cs).map fun (k, cs) => ((anchor k, r), cs) := by
      simp only [parted]
      cases readWordEdge? cs <;> rfl
    exact hedge
  · rfl
  · rfl
  · rfl
  · rename_i cs
    have hname : parted (fun cs => (readName? '>' cs).bind fun (name, cs) => repeatNamed? name r cs)
        cs = (readName? '>' cs).bind fun (name, cs) => parted (repeatNamed? name r) cs := by
      simp only [parted]
      cases readName? '>' cs <;> rfl
    exact hname
  · rfl
  · rfl
  · rename_i hk
    exact (if_neg (head?_ne hk)).symm
  · rename_i hA hz hb hB hless hgreater _ hK hG hk
    rw [if_neg (head?_ne hA), if_neg (head?_ne hz), if_neg (head?_ne hb), if_neg (head?_ne hB),
      if_neg (head?_ne hless), if_neg (head?_ne hgreater), if_neg (head?_ne hk),
      if_neg (head?_ne hK), if_neg (head?_ne hG)]
    cases Escape.readDecimal? cs with
    | some p => rfl
    | none =>
      cases Escape.read? r.flags cs with
      | none => rfl
      | some p =>
        obtain ⟨e, mid⟩ := p
        cases e <;> rfl

theorem readEscape?_local (r : Reading) : Local (parted (readEscape? r)) := by
  have hnamed : Local fun cs =>
      if cs.head? = some '<' then
        (readName? '>' cs.tail).bind fun (name, cs) => parted (repeatNamed? name r) cs
      else none :=
    .ifHead (by decide) ((readName?_local '>').bind fun name => repeatNamed?_local name r) .fails
  have hplain : Local fun cs =>
      (Escape.read? r.flags cs).map fun (e, cs) => ((ofEscape r.flags e, r), cs) :=
    (Local.ofCons rfl fun c => (Escape.read?_stable r.flags c).local).map
      fun e => (ofEscape r.flags e, r)
  have hnumber := Local.elim readDecimal?_stable
    (fun index => Local.returns (repeatGroup index { r with numbered := true })) hplain
  have hedge := readWordEdge?_stable.local.map fun k => (anchor k, r)
  have h := Local.ifHead (c := 'A') (by decide) (.returns (anchor .textStart, r))
    (Local.ifHead (c := 'z') (by decide) (.returns (anchor .textEnd, r))
    (Local.ifHead (c := 'b') (by decide) hedge
    (Local.ifHead (c := 'B') (by decide) (.returns (anchor .noWordEdge, r))
    (Local.ifHead (c := '<') (by decide) (.returns (anchor .wordStart, r))
    (Local.ifHead (c := '>') (by decide) (.returns (anchor .wordEnd, r))
    (Local.ifHead (c := 'k') (by decide) hnamed
    (Local.ifHead (c := 'K') (by decide) .fails
    (Local.ifHead (c := 'G') (by decide) .fails hnumber))))))))
  simpa only [← readEscape?_eq] using h

/-! ## Flags -/

/-- A character of the flags is read over, or it ends them. -/
theorem readFlags?_cons (on letters dash : Bool) (f : Flags) (c : Char) :
    (∃ on' letters' dash' f', ∀ cs, readFlags? on letters dash f (c :: cs) =
      readFlags? on' letters' dash' f' cs) ∨
    ∃ o : Option (Flags × Bool), ∀ cs, readFlags? on letters dash f (c :: cs) =
      o.map fun p => (p.1, p.2, cs) := by
  by_cases hi : c = 'i'
  · subst hi
    exact .inl ⟨_, _, _, _, fun _ => rfl⟩
  by_cases hm : c = 'm'
  · subst hm
    exact .inl ⟨_, _, _, _, fun _ => rfl⟩
  by_cases hs : c = 's'
  · subst hs
    exact .inl ⟨_, _, _, _, fun _ => rfl⟩
  by_cases hread : on = true ∧ (c = 'u' ∨ c = '-')
  · obtain ⟨rfl, rfl | rfl⟩ := hread
    · exact .inl ⟨_, _, _, _, fun _ => rfl⟩
    · exact .inl ⟨_, _, _, _, fun _ => rfl⟩
  · refine .inr ⟨(readFlags? on letters dash f [c]).map fun p => (p.1, p.2.1), fun cs => ?_⟩
    unfold readFlags?
    split <;> simp_all

theorem readFlags?_local (on letters dash : Bool) (f : Flags) :
    Local (parted (readFlags? on letters dash f)) where
  suffix := by
    intro cs x rest h
    induction cs generalizing on letters dash f with
    | nil => cases h
    | cons c cs ih =>
      refine .trans ?_ (List.suffix_cons c cs)
      rcases readFlags?_cons on letters dash f c with ⟨on, letters, dash, f, heq⟩ | ⟨o, heq⟩
      · rw [parted, heq] at h
        exact ih on letters dash f h
      · rw [parted, heq] at h
        cases o with
        | none => cases h
        | some p =>
          cases h
          exact List.suffix_rfl
  closing_iff := by
    intro cs x rest
    induction cs generalizing on letters dash f with
    | nil =>
      -- flags may end with the closing parenthesis, which is not left then
      have hclosing : parted (readFlags? on letters dash f) ([] ++ closing) =
          if letters then some ((f, false), ['$']) else none := by
        simp only [List.nil_append, parted, closing, readFlags?]
        split <;> rfl
      have hrest : ['$'] ≠ rest ++ closing := fun h => by
        have hlength := congrArg List.length h
        simp [length_closing] at hlength
      rw [hclosing]
      constructor
      · intro h
        split at h
        · exact absurd (Prod.mk.inj (Option.some.inj h)).2 hrest
        · cases h
      · intro h
        cases h
    | cons c cs ih =>
      rw [List.cons_append]
      rcases readFlags?_cons on letters dash f c with ⟨on, letters, dash, f, heq⟩ | ⟨o, heq⟩
      · rw [parted, heq, parted, heq]
        exact ih on letters dash f
      · rw [parted, heq, parted, heq]
        cases o <;> simp

/-! ## Patterns -/

theorem atom?_cons_local {g : Reading → List Char → Option Parsed} (hg : ∀ r, Local (parted (g r)))
    (r : Reading) (c : Char) : Local fun cs => parted (atom? g r) (c :: cs) := by
  by_cases hescape : c = '\\'
  · subst hescape
    exact readEscape?_local r
  by_cases hclass : c = '['
  · subst hclass
    have hread := (Class.read?_stable r.flags).local.map fun s => (one s, r)
    have heq (cs : List Char) : parted (atom? g r) ('[' :: cs) =
        (Class.read? r.flags cs).map fun p => ((one p.1, r), p.2) := by
      rw [parted, atom?]
      cases Class.read? r.flags cs <;> rfl
    simpa only [← heq] using hread
  by_cases hgroup : c = '('
  · subst hgroup
    exact hg r
  obtain ⟨o, ho⟩ : ∃ o : Option Regex, ∀ cs,
      parted (atom? g r) (c :: cs) = o.elim none fun a => some ((a, r), cs) := by
    refine ⟨(atom? g r [c]).map Prod.fst, fun cs => ?_⟩
    unfold parted atom?
    split <;> simp_all
  simp only [ho]
  cases o with
  | none => exact .fails
  | some a => exact .returns _

theorem atom?_local {g : Reading → List Char → Option Parsed} (hg : ∀ r, Local (parted (g r)))
    (r : Reading) : Local (parted (atom? g r)) :=
  .ofCons rfl (atom?_cons_local hg r)

/-- An atom with its quantifier. -/
def piece? (g : Reading → List Char → Option Parsed) (r : Reading) (cs : List Char) :
    Option Parsed := do
  let (a, r, cs) ← atom? g r cs
  let (a, cs) ← quantify? a cs
  return (a, r, cs)

theorem parted_piece? (g : Reading → List Char → Option Parsed) (r : Reading) (cs : List Char) :
    parted (piece? g r) cs =
      (parted (atom? g r) cs).bind fun (x, cs) =>
        (quantify? x.1 cs).map fun (a, cs) => ((a, x.2), cs) := by
  rw [parted, parted, piece?]
  cases atom? g r cs with
  | none => rfl
  | some p =>
    obtain ⟨a, r, mid⟩ := p
    cases h : quantify? a mid <;> simp [h]

section

variable {g : Reading → List Char → Option Parsed} (hg : ∀ r, Local (parted (g r)))

include hg

theorem piece?_local (r : Reading) : Local (parted (piece? g r)) := by
  have h := (atom?_local hg r).bind fun x =>
    (quantify?_stable x.1).local.map fun a => (a, x.2)
  simpa only [← parted_piece?] using h

/-- A piece takes at least one character. -/
theorem piece?_length {r r' : Reading} {cs rest : List Char} {a : Regex}
    (h : piece? g r cs = some (a, r', rest)) : rest.length < cs.length := by
  cases cs with
  | nil => cases h
  | cons c cs =>
    rw [← parted_eq_some, parted_piece?, Option.bind_eq_some_iff] at h
    obtain ⟨⟨x, mid⟩, hx, h⟩ := h
    obtain ⟨⟨b, rest⟩, hb, ⟨⟩⟩ := Option.map_eq_some_iff.1 h
    have hatom := ((atom?_cons_local hg r c).suffix hx).length_le
    have hrest := ((quantify?_stable x.1).suffix hb).length_le
    simp only [List.length_cons]
    omega

/-! ## Sequences -/

/-- The pieces read so far with one more, unless it is empty. -/
def push (a : Regex) (done : List Regex) : List Regex :=
  match a with
  | empty => done
  | a => a :: done

omit hg in
theorem pieces?_cons {c : Char} (hbar : c ≠ '|') (hparen : c ≠ ')') (fuel : Nat)
    (done : List Regex) (r : Reading) (cs : List Char) :
    pieces? g (fuel + 1) done r (c :: cs) =
      (piece? g r (c :: cs)).bind fun (a, r, cs) => pieces? g fuel (push a done) r cs := by
  rw [pieces?, piece?]
  · cases atom? g r (c :: cs) with
    | none => rfl
    | some p =>
      obtain ⟨a, r, mid⟩ := p
      simp only [Option.bind_eq_bind, Option.bind_some]
      cases quantify? a mid with
      | none => rfl
      | some q => rfl
  · exact nofun
  · rintro _ ⟨⟩
    exact hbar rfl
  · rintro _ ⟨⟩
    exact hparen rfl

/-- Where a sequence ends: at a bar, at a closing parenthesis and with the text. -/
def Ended (cs : List Char) : Prop := ∀ c ∈ cs.head?, c = '|' ∨ c = ')'

omit hg in
theorem pieces?_ended {cs : List Char} (h : Ended cs) (fuel : Nat) (done : List Regex)
    (r : Reading) : pieces? g (fuel + 1) done r cs = some (sequence done.reverse, r, cs) := by
  cases cs with
  | nil => rfl
  | cons c cs => rcases h c rfl with rfl | rfl <;> rfl

omit hg in
/-- The first piece of a sequence that goes on. -/
theorem pieces?_eq_some {fuel : Nat} {done : List Regex} {r r' : Reading} {cs rest : List Char}
    {a : Regex} (h : ¬Ended cs) :
    pieces? g (fuel + 1) done r cs = some (a, r', rest) ↔
      ∃ b s mid, piece? g r cs = some (b, s, mid) ∧
        pieces? g fuel (push b done) s mid = some (a, r', rest) := by
  cases cs with
  | nil => exact absurd nofun h
  | cons c cs =>
    simp only [Ended, List.head?_cons, Option.mem_def, Option.some.injEq, forall_eq', not_or] at h
    rw [pieces?_cons h.1 h.2, Option.bind_eq_some_iff]
    constructor
    · rintro ⟨⟨b, s, mid⟩, hb, h⟩
      exact ⟨b, s, mid, hb, h⟩
    · rintro ⟨b, s, mid, hb, h⟩
      exact ⟨(b, s, mid), hb, h⟩

theorem pieces?_suffix {fuel : Nat} {done : List Regex} {r r' : Reading} {cs rest : List Char}
    {a : Regex} (h : pieces? g fuel done r cs = some (a, r', rest)) : rest <:+ cs := by
  induction fuel generalizing done r cs with
  | zero => cases h
  | succ fuel ih =>
    by_cases hcs : Ended cs
    · rw [pieces?_ended hcs] at h
      cases h
      exact List.suffix_rfl
    · obtain ⟨b, s, mid, hb, h⟩ := (pieces?_eq_some hcs).1 h
      exact (ih h).trans ((piece?_local hg r).suffix (parted_eq_some.2 hb))

omit hg in
theorem ended_closing {cs : List Char} : Ended (cs ++ closing) ↔ Ended cs := by
  cases cs with
  | nil =>
    refine iff_of_true ?_ nofun
    rintro c ⟨⟩
    exact .inr rfl
  | cons c cs => rfl

theorem pieces?_closing_iff {fuel fuel' : Nat} {done : List Regex} {r r' : Reading}
    {cs rest : List Char} {a : Regex} (hfuel : cs.length < fuel) (hfuel' : cs.length + 2 < fuel') :
    pieces? g fuel' done r (cs ++ closing) = some (a, r', rest ++ closing) ↔
      pieces? g fuel done r cs = some (a, r', rest) := by
  induction fuel generalizing fuel' done r cs with
  | zero => omega
  | succ fuel ih =>
    obtain ⟨fuel', rfl⟩ : ∃ k, fuel' = k + 1 := ⟨fuel' - 1, by omega⟩
    by_cases hcs : Ended cs
    · rw [pieces?_ended hcs, pieces?_ended (ended_closing.2 hcs)]
      simp
    · have hlocal := piece?_local hg r
      rw [pieces?_eq_some hcs, pieces?_eq_some (hcs ∘ ended_closing.1)]
      constructor
      · rintro ⟨b, s, mid, hb, h⟩
        obtain ⟨front, rfl⟩ := exists_append_closing (hlocal.suffix (parted_eq_some.2 hb))
          (pieces?_suffix hg h)
        have hb := parted_eq_some.1 (hlocal.closing_iff.1 (parted_eq_some.2 hb))
        have hlength := piece?_length hg hb
        exact ⟨b, s, front, hb, (ih (by omega) (by omega)).1 h⟩
      · rintro ⟨b, s, mid, hb, h⟩
        have hlength := piece?_length hg hb
        refine ⟨b, s, mid ++ closing, ?_, (ih (by omega) (by omega)).2 h⟩
        exact parted_eq_some.1 (hlocal.closing_iff.2 (parted_eq_some.2 hb))

theorem pieces?_local (done : List Regex) (r : Reading) :
    Local (parted fun cs => pieces? g (cs.length + 1) done r cs) where
  suffix h := pieces?_suffix hg (parted_eq_some.1 h)
  closing_iff := by
    rintro cs ⟨a, r'⟩ rest
    rw [parted_eq_some, parted_eq_some]
    exact pieces?_closing_iff hg (by omega) (by simp [length_closing])

/-! ## Alternatives -/

omit hg in
theorem ways?_eq_some {fuel : Nat} {r r' : Reading} {cs rest : List Char} {as : List Regex} :
    ways? g (fuel + 1) r cs = some (as, r', rest) ↔
      ∃ a s mid, pieces? g (cs.length + 1) [] r cs = some (a, s, mid) ∧
        if mid.head? = some '|' then
          ∃ bs, ways? g fuel s mid.tail = some (bs, r', rest) ∧ as = a :: bs
        else as = [a] ∧ r' = s ∧ rest = mid := by
  rw [ways?, Option.bind_eq_bind, Option.bind_eq_some_iff]
  constructor
  · rintro ⟨⟨a, s, mid⟩, ha, h⟩
    refine ⟨a, s, mid, ha, ?_⟩
    simp only at h
    split at h
    · obtain ⟨⟨bs, t, left⟩, hbs, ⟨⟩⟩ := Option.bind_eq_some_iff.1 h
      exact ⟨bs, hbs, rfl⟩
    · next hbar =>
      cases h
      rw [if_neg (head?_ne hbar)]
      exact ⟨rfl, rfl, rfl⟩
  · rintro ⟨a, s, mid, ha, h⟩
    refine ⟨(a, s, mid), ha, ?_⟩
    simp only
    split
    · obtain ⟨bs, hbs, rfl⟩ := h
      exact Option.bind_eq_some_iff.2 ⟨_, hbs, rfl⟩
    · next hbar =>
      rw [if_neg (head?_ne hbar)] at h
      obtain ⟨rfl, rfl, rfl⟩ := h
      rfl

theorem ways?_suffix {fuel : Nat} {r r' : Reading} {cs rest : List Char} {as : List Regex}
    (h : ways? g fuel r cs = some (as, r', rest)) : rest <:+ cs := by
  induction fuel generalizing r cs as with
  | zero => cases h
  | succ fuel ih =>
    obtain ⟨a, s, mid, ha, h⟩ := ways?_eq_some.1 h
    have hmid := pieces?_suffix hg ha
    split at h
    · obtain ⟨bs, hbs, rfl⟩ := h
      exact ((ih hbs).trans (List.tail_suffix mid)).trans hmid
    · obtain ⟨-, -, rfl⟩ := h
      exact hmid

theorem ways?_closing_iff {fuel fuel' : Nat} {r r' : Reading} {cs rest : List Char}
    {as : List Regex} (hfuel : cs.length < fuel) (hfuel' : cs.length + 2 < fuel') :
    ways? g fuel' r (cs ++ closing) = some (as, r', rest ++ closing) ↔
      ways? g fuel r cs = some (as, r', rest) := by
  induction fuel generalizing fuel' r cs as with
  | zero => omega
  | succ fuel ih =>
    obtain ⟨fuel', rfl⟩ : ∃ k, fuel' = k + 1 := ⟨fuel' - 1, by omega⟩
    have hlocal := pieces?_local hg [] r
    have hnext (s : Reading) {mid : List Char} {bs : List Regex} (hmid : mid <:+ cs)
        (hbar : mid.head? = some '|') :
        ways? g fuel' s (mid ++ closing).tail = some (bs, r', rest ++ closing) ↔
          ways? g fuel s mid.tail = some (bs, r', rest) := by
      obtain ⟨tail, rfl⟩ := List.head?_eq_some_iff.1 hbar
      have hlength := hmid.length_le
      rw [List.length_cons] at hlength
      exact ih (by omega) (by omega)
    rw [ways?_eq_some, ways?_eq_some]
    constructor
    · rintro ⟨a, s, mid, ha, h⟩
      obtain ⟨front, rfl⟩ : ∃ front, mid = front ++ closing := by
        suffices hsuffix : rest ++ closing <:+ mid from
          exists_append_closing (hlocal.suffix (parted_eq_some.2 ha)) hsuffix
        split at h
        · obtain ⟨bs, hbs, -⟩ := h
          exact (ways?_suffix hg hbs).trans (List.tail_suffix mid)
        · exact h.2.2 ▸ List.suffix_rfl
      have ha' := hlocal.closing_iff.1 (parted_eq_some.2 ha)
      refine ⟨a, s, front, parted_eq_some.1 ha', ?_⟩
      simp only [head?_closing (show '|' ≠ ')' by decide)] at h
      split at h
      · next hbar =>
        obtain ⟨bs, hbs, rfl⟩ := h
        rw [if_pos hbar]
        exact ⟨bs, (hnext s (hlocal.suffix ha') hbar).1 hbs, rfl⟩
      · next hbar =>
        rw [if_neg hbar]
        exact ⟨h.1, h.2.1, List.append_cancel_right h.2.2⟩
    · rintro ⟨a, s, mid, ha, h⟩
      have ha := parted_eq_some.2 ha
      refine ⟨a, s, mid ++ closing, parted_eq_some.1 (hlocal.closing_iff.2 ha), ?_⟩
      simp only [head?_closing (show '|' ≠ ')' by decide)]
      split at h
      · next hbar =>
        obtain ⟨bs, hbs, rfl⟩ := h
        rw [if_pos hbar]
        exact ⟨bs, (hnext s (hlocal.suffix ha) hbar).2 hbs, rfl⟩
      · next hbar =>
        obtain ⟨rfl, rfl, rfl⟩ := h
        rw [if_neg hbar]
        exact ⟨rfl, rfl, rfl⟩

theorem ways?_local (r : Reading) : Local (parted fun cs => ways? g (cs.length + 1) r cs) where
  suffix h := ways?_suffix hg (parted_eq_some.1 h)
  closing_iff := by
    rintro cs ⟨as, r'⟩ rest
    rw [parted_eq_some, parted_eq_some]
    exact ways?_closing_iff hg (by omega) (by simp [length_closing])

/-- The pattern of alternatives, if they may stand together. -/
def ofWays? (x : List Regex × Reading) : Option (Regex × Reading) :=
  match x with
  | ([a], r) => if r.numbered && !r.names.isEmpty then none else some (a, r)
  | (as, r) => some (alt as, r)

omit hg in
theorem parted_alternatives? (r : Reading) (cs : List Char) :
    parted (alternatives? g r) cs =
      (parted (fun cs => ways? g (cs.length + 1) r cs) cs).bind fun (x, cs) =>
        (ofWays? x).map fun y => (y, cs) := by
  rw [parted, parted, alternatives?]
  cases ways? g (cs.length + 1) r cs with
  | none => rfl
  | some p =>
    obtain ⟨as, s, mid⟩ := p
    match as with
    | [] => rfl
    | [a] =>
      simp only [Option.bind_eq_bind, Option.bind_some, Option.map_some, ofWays?]
      split <;> rfl
    | a :: b :: as => rfl

theorem alternatives?_local (r : Reading) : Local (parted (alternatives? g r)) := by
  have hways (x : List Regex × Reading) : Local fun cs => (ofWays? x).map fun y => (y, cs) := by
    cases ofWays? x with
    | none => exact .fails
    | some y => exact .returns y
  simpa only [← parted_alternatives?] using (ways?_local hg r).bind hways

omit hg in
theorem inside?_eq_some {r r' : Reading} {cs rest : List Char} {a : Regex} :
    inside? g r cs = some (a, r', rest) ↔ alternatives? g r cs = some (a, r', ')' :: rest) := by
  rw [inside?, Option.bind_eq_bind, Option.bind_eq_some_iff]
  constructor
  · rintro ⟨⟨b, s, mid⟩, hb, h⟩
    split at h
    · next heq =>
      cases heq
      cases h
      exact hb
    · cases h
  · intro h
    exact ⟨_, h, rfl⟩

theorem inside?_local (r : Reading) : Local (parted (inside? g r)) where
  suffix := by
    rintro cs ⟨a, r'⟩ rest h
    rw [parted_eq_some, inside?_eq_some, ← parted_eq_some] at h
    exact (List.suffix_cons _ _).trans ((alternatives?_local hg r).suffix h)
  closing_iff := by
    rintro cs ⟨a, r'⟩ rest
    rw [parted_eq_some, parted_eq_some, inside?_eq_some, inside?_eq_some, ← parted_eq_some,
      ← parted_eq_some, ← List.cons_append]
    exact (alternatives?_local hg r).closing_iff

theorem numbered?_local (r : Reading) : Local (parted (numbered? g r)) := by
  have h := (inside?_local hg { r with groups := r.groups + 1 }).map fun x =>
    (group (r.groups + 1) x.1, { x.2 with widths := (r.groups + 1, x.1.width) :: x.2.widths })
  convert h using 2 with cs
  rw [parted, parted, numbered?]
  cases inside? g { r with groups := r.groups + 1 } cs <;> rfl

theorem named?_local (r : Reading) : Local (parted (named? g r)) := by
  have heq (cs : List Char) : parted (named? g r) cs =
      (readName? '>' cs).bind fun (name, cs) =>
        parted (numbered? g { r with names := (name, r.groups + 1) :: r.names }) cs := by
    rw [parted, named?]
    cases readName? '>' cs <;> rfl
  simpa only [← heq] using (readName?_local '>').bind fun name =>
    numbered?_local hg { r with names := (name, r.groups + 1) :: r.names }

/-- What flags are followed by. -/
def afterFlags? (g : Reading → List Char → Option Parsed) (r : Reading) (x : Flags × Bool)
    (cs : List Char) : Option ((Regex × Reading) × List Char) :=
  if x.2 then
    (parted (inside? g { r with flags := x.1 }) cs).map fun (y, cs) =>
      ((y.1, { y.2 with flags := r.flags }), cs)
  else some ((empty, { r with flags := x.1 }), cs)

theorem flagged?_local (r : Reading) : Local (parted (flagged? g r)) := by
  have hafter (x : Flags × Bool) : Local (afterFlags? g r x) := by
    unfold afterFlags?
    split
    · exact (inside?_local hg { r with flags := x.1 }).map fun y =>
        (y.1, { y.2 with flags := r.flags })
    · exact .returns _
  have heq (cs : List Char) : parted (flagged? g r) cs =
      (parted (readFlags? true false false r.flags) cs).bind fun (x, cs) =>
        afterFlags? g r x cs := by
    rw [parted, parted, flagged?]
    cases readFlags? true false false r.flags cs with
    | none => rfl
    | some p =>
      obtain ⟨flags, colon, mid⟩ := p
      cases colon with
      | false => rfl
      | true =>
        simp only [Option.bind_eq_bind, Option.bind_some, Option.map_some, afterFlags?, parted]
        cases inside? g { r with flags := flags } mid <;> rfl
  simpa only [← heq] using (readFlags?_local true false false r.flags).bind hafter

end

/-! ## Groups -/

/-- What is read inside of a look or an atomic group. -/
def within? (g : Reading → List Char → Option Parsed) (r : Reading) (f : Regex → Regex)
    (cs : List Char) : Option ((Regex × Reading) × List Char) :=
  (parted (inside? g r) cs).map fun (x, cs) => ((f x.1, x.2), cs)

/-- A group by the characters that open it. -/
theorem group?_eq (depth : Nat) (r : Reading) (cs : List Char) :
    parted (group? (depth + 1) r) cs =
      if cs.head? = some '?' then
        let ds := cs.tail
        if ds.head? = some '=' then within? (group? depth) r (look true true) ds.tail
        else if ds.head? = some '!' then within? (group? depth) r (look true false) ds.tail
        else if ds.head? = some '<' then
          if ds.tail.head? = some '=' then
            within? (group? depth) r (look false true) ds.tail.tail
          else if ds.tail.head? = some '!' then
            within? (group? depth) r (look false false) ds.tail.tail
          else parted (named? (group? depth) r) ds.tail
        else if ds.head? = some '>' then within? (group? depth) r atomic ds.tail
        else if ds.head? = some 'P' then
          if ds.tail.head? = some '=' then
            (readName? ')' ds.tail.tail).bind fun (name, cs) => parted (repeatNamed? name r) cs
          else if ds.tail.head? = some '<' then parted (named? (group? depth) r) ds.tail.tail
          else none
        else parted (flagged? (group? depth) r) ds
      else parted (numbered? (group? depth) r) cs := by
  have hwithin (f : Regex → Regex) (cs : List Char) :
      parted (fun cs => (inside? (group? depth) r cs).map fun (a, r, cs) => (f a, r, cs)) cs =
        within? (group? depth) r f cs := by
    rw [within?, parted, parted, Option.map_map, Option.map_map]
    rfl
  have hname (cs : List Char) : parted (fun cs => (readName? ')' cs).bind fun (name, cs) =>
      repeatNamed? name r cs) cs =
        (readName? ')' cs).bind fun (name, cs) => parted (repeatNamed? name r) cs := by
    simp only [parted]
    cases readName? ')' cs <;> rfl
  unfold parted group?
  split
  · exact hwithin _ _
  · exact hwithin _ _
  · exact hwithin _ _
  · exact hwithin _ _
  · exact hwithin _ _
  · exact hname _
  · rfl
  · rename_i hequal hbang
    exact ((if_neg (head?_ne hequal)).trans (if_neg (head?_ne hbang))).symm
  · rename_i ds hequal hbang _ _ hgreater hrepeat hname hless
    refine Eq.trans ?_ ((if_neg (head?_ne hequal)).trans <| (if_neg (head?_ne hbang)).trans <|
      (if_neg (head?_ne hless)).trans (if_neg (head?_ne hgreater))).symm
    split
    · rename_i hhead
      obtain ⟨es, rfl⟩ := List.head?_eq_some_iff.1 hhead
      have hequal' : es.head? ≠ some '=' := head?_ne fun cs hcs => hrepeat cs (hcs ▸ rfl)
      have hless' : es.head? ≠ some '<' := head?_ne fun cs hcs => hname cs (hcs ▸ rfl)
      exact ((if_neg hequal').trans (if_neg hless')).symm
    · rfl
  · rename_i hquestion
    exact (if_neg (head?_ne hquestion)).symm

theorem within?_local {g : Reading → List Char → Option Parsed} (hg : ∀ r, Local (parted (g r)))
    (r : Reading) (f : Regex → Regex) : Local (within? g r f) :=
  (inside?_local hg r).map fun x => (f x.1, x.2)

theorem group?_local (depth : Nat) (r : Reading) : Local (parted (group? depth r)) := by
  induction depth generalizing r with
  | zero => exact .fails
  | succ depth ih =>
    have hrepeat := (readName?_local ')').bind fun name => repeatNamed?_local name r
    have hbehind := Local.ifHead (c := '=') (by decide) (within?_local ih r (look false true))
      (Local.ifHead (c := '!') (by decide) (within?_local ih r (look false false))
        (named?_local ih r))
    have hextended := Local.ifHead (c := '=') (by decide) hrepeat
      (Local.ifHead (c := '<') (by decide) (named?_local ih r) .fails)
    have hquestion := Local.ifHead (c := '=') (by decide) (within?_local ih r (look true true))
      (Local.ifHead (c := '!') (by decide) (within?_local ih r (look true false))
      (Local.ifHead (c := '<') (by decide) hbehind
      (Local.ifHead (c := '>') (by decide) (within?_local ih r atomic)
      (Local.ifHead (c := 'P') (by decide) hextended (flagged?_local ih r)))))
    simpa only [← group?_eq] using
      Local.ifHead (c := '?') (by decide) hquestion (numbered?_local ih r)

end Regex

end JsonSchema
