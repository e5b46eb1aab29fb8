import JsonSchema.Node.Shape
import JsonSchema.Proofs.Grammar

/-!
# Patterns for whole texts

A text is made the pattern for whole texts by an opening part in front of it and a closing part
behind it. That is read as the pattern of the text between two anchors if the text closes no group
that it does not open, leaves room for one more group around it, and does not repeat groups by
number if it has names. Each of the three is needed.

* `Regex.group?_keeps`: more levels of nesting change nothing for what is read with fewer;
* `Regex.Enclosable`: the texts that can stand between the parts;
* `Regex.parse?_wholeText`: what the pattern for whole texts is.
-/

namespace JsonSchema

namespace Regex

variable {α β : Type}

/-! ## Nesting -/

/-- What has been read stays the same if more may be read. -/
def Keeps (o o' : Option α) : Prop := ∀ x, o = some x → o' = some x

theorem Keeps.refl (o : Option α) : Keeps o o := fun _ h => h

theorem Keeps.bind {o o' : Option α} {f f' : α → Option β} (ho : Keeps o o')
    (hf : ∀ x, Keeps (f x) (f' x)) : Keeps (o.bind f) (o'.bind f') := by
  intro y hy
  obtain ⟨x, hx, hy⟩ := Option.bind_eq_some_iff.1 hy
  exact Option.bind_eq_some_iff.2 ⟨x, ho x hx, hf x y hy⟩

theorem Keeps.map {o o' : Option α} (ho : Keeps o o') (f : α → β) :
    Keeps (o.map f) (o'.map f) := by
  intro y hy
  obtain ⟨x, hx, rfl⟩ := Option.map_eq_some_iff.1 hy
  rw [ho x hx, Option.map_some]

section

variable {g g' : Reading → List Char → Option Parsed} (hg : ∀ r cs, Keeps (g r cs) (g' r cs))

include hg

theorem atom?_keeps (r : Reading) (cs : List Char) : Keeps (atom? g r cs) (atom? g' r cs) := by
  unfold atom?
  split <;> first | exact .refl _ | exact hg _ _

theorem pieces?_keeps (fuel : Nat) (done : List Regex) (r : Reading) (cs : List Char) :
    Keeps (pieces? g fuel done r cs) (pieces? g' fuel done r cs) := by
  induction fuel generalizing done r cs with
  | zero => exact .refl _
  | succ fuel ih =>
    unfold pieces?
    split <;> first
      | exact .refl _
      | exact (atom?_keeps hg r _).bind fun _ => (Keeps.refl _).bind fun _ => ih _ _ _

theorem ways?_keeps (fuel : Nat) (r : Reading) (cs : List Char) :
    Keeps (ways? g fuel r cs) (ways? g' fuel r cs) := by
  induction fuel generalizing r cs with
  | zero => exact .refl _
  | succ fuel ih =>
    rw [ways?, ways?]
    refine (pieces?_keeps hg _ _ _ _).bind fun p => ?_
    simp only
    split
    · exact (ih _ _).bind fun _ => .refl _
    · exact .refl _

theorem alternatives?_keeps (r : Reading) (cs : List Char) :
    Keeps (alternatives? g r cs) (alternatives? g' r cs) :=
  (ways?_keeps hg _ r cs).bind fun _ => .refl _

theorem inside?_keeps (r : Reading) (cs : List Char) :
    Keeps (inside? g r cs) (inside? g' r cs) :=
  (alternatives?_keeps hg r cs).bind fun _ => .refl _

theorem numbered?_keeps (r : Reading) (cs : List Char) :
    Keeps (numbered? g r cs) (numbered? g' r cs) :=
  (inside?_keeps hg _ cs).bind fun _ => .refl _

theorem named?_keeps (r : Reading) (cs : List Char) :
    Keeps (named? g r cs) (named? g' r cs) :=
  (Keeps.refl _).bind fun _ => numbered?_keeps hg _ _

theorem flagged?_keeps (r : Reading) (cs : List Char) :
    Keeps (flagged? g r cs) (flagged? g' r cs) := by
  refine (Keeps.refl _).bind fun p => ?_
  simp only
  split
  · exact (inside?_keeps hg _ _).bind fun _ => .refl _
  · exact .refl _

end

/-- One more level of nesting changes nothing for what needs it not. -/
theorem group?_keeps (depth : Nat) (r : Reading) (cs : List Char) :
    Keeps (group? depth r cs) (group? (depth + 1) r cs) := by
  induction depth generalizing r cs with
  | zero => exact nofun
  | succ depth ih =>
    unfold group?
    split <;> first
      | exact (inside?_keeps ih _ _).map _
      | exact named?_keeps ih _ _
      | exact flagged?_keeps ih _ _
      | exact numbered?_keeps ih _ _
      | exact .refl _

/-! ## The text of a pattern for whole texts -/

/-- What a text is read as, with so many groups allowed one in the other. -/
def reading? (depth : Nat) (text : String) : Option Parsed :=
  alternatives? (group? depth) {} text.toList

/-- A pattern between the ends of a text. -/
def enclose (a : Regex) : Regex :=
  match a with
  | empty => seq [anchor .textStart, anchor .textEnd]
  | a => whole a

theorem sequence_enclose (a : Regex) :
    sequence (anchor .textEnd :: push a [anchor .textStart]).reverse = enclose a := by
  cases a <;> rfl

/-- A group around a text is closed by the parenthesis behind the text, if the text does not close
it. -/
theorem inside?_closing {depth : Nat} {cs rest : List Char} {a : Regex} {r r' : Reading}
    (hclosed : ∀ b s left, alternatives? (group? depth) r cs ≠ some (b, s, ')' :: left)) :
    inside? (group? depth) r (cs ++ closing) = some (a, r', rest) ↔
      alternatives? (group? depth) r cs = some (a, r', []) ∧ rest = ['$'] := by
  have hlocal := alternatives?_local (group?_local depth) r
  rw [inside?_eq_some]
  constructor
  · intro h
    have hsuffix := hlocal.suffix (parted_eq_some.2 h)
    have hrest : rest ≠ [] := by
      rintro rfl
      obtain ⟨front, hfront⟩ := hsuffix
      have hlast := congrArg List.getLast? hfront
      simp [closing] at hlast
    obtain ⟨front, hfront⟩ := List.suffix_of_suffix_length_le (List.suffix_append cs closing)
      hsuffix (Nat.succ_le_succ (List.length_pos_iff.2 hrest))
    rw [← hfront, ← parted_eq_some, hlocal.closing_iff, parted_eq_some] at h
    cases front with
    | nil =>
      cases hfront
      exact ⟨h, rfl⟩
    | cons c front =>
      cases hfront
      exact absurd h (hclosed _ _ _)
  · rintro ⟨h, rfl⟩
    exact parted_eq_some.1 (hlocal.closing_iff.2 (parted_eq_some.2 h))

/-- The text can stand between the parentheses: it closes no group that it does not open, its
groups leave room for one more, and they are not repeated by number if they have names. -/
def Enclosable (text : String) : Prop :=
  ∀ p ∈ reading? largestDepth text, p.2.2 = [] ∧ (reading? (largestDepth - 1) text).isSome ∧
    (p.2.1.numbered = true → p.2.1.names = [])

instance decidableEnclosable (text : String) : Decidable (Enclosable text) :=
  inferInstanceAs (Decidable (∀ p ∈ reading? largestDepth text, _))

theorem Enclosable.reading?_eq {text : String} (h : Enclosable text) :
    reading? (largestDepth - 1) text = reading? largestDepth text := by
  have hkeeps := alternatives?_keeps (group?_keeps (largestDepth - 1)) {} text.toList
  cases hless : reading? (largestDepth - 1) text with
  | some p => exact (hkeeps p hless).symm
  | none =>
    cases hfull : reading? largestDepth text with
    | none => rfl
    | some p =>
      have hsome := (h p hfull).2.1
      rw [hless] at hsome
      cases hsome

theorem parse?_eq (text : String) :
    Regex.parse? text = (reading? largestDepth text).bind fun (a, r, rest) =>
      if rest = [] ∧ r.kept.all (fun index => 0 < index && index ≤ r.groups) then some (a, r.kept)
      else none := by
  rw [Regex.parse?, reading?]
  cases alternatives? (group? largestDepth) {} text.toList with
  | none => rfl
  | some p =>
    obtain ⟨a, r, rest⟩ := p
    cases rest with
    | nil => simp
    | cons c rest => simp

/-- A group that is not numbered is read as its inside. -/
theorem group?_colon (depth : Nat) (cs : List Char) :
    group? (depth + 1) {} ('?' :: ':' :: cs) =
      (inside? (group? depth) {} cs).map fun (a, r, rest) => (a, { r with flags := {} }, rest) := by
  show flagged? (group? depth) {} (':' :: cs) = _
  rw [flagged?]
  show (do
    let (a, s, rest) ← inside? (group? depth) {} cs
    return (a, { s with flags := {} }, rest)) = _
  cases inside? (group? depth) {} cs <;> rfl

theorem piece?_colon (depth : Nat) (cs : List Char) :
    piece? (group? (depth + 1)) {} ('(' :: '?' :: ':' :: cs) =
      (inside? (group? depth) {} cs).bind fun (a, r, rest) =>
        (quantify? a rest).bind fun (a, rest) => some (a, { r with flags := {} }, rest) := by
  rw [piece?]
  show (group? (depth + 1) {} ('?' :: ':' :: cs)).bind _ = _
  rw [group?_colon]
  cases inside? (group? depth) {} cs <;> rfl

/-- The opening part gives an anchor and the inside of a group. -/
theorem pieces?_wholeText (depth fuel : Nat) (cs : List Char) :
    pieces? (group? (depth + 1)) (fuel + 2) [] {} ('^' :: '(' :: '?' :: ':' :: cs) =
      (inside? (group? depth) {} cs).bind fun (a, r, rest) =>
        (quantify? a rest).bind fun (a, rest) =>
          pieces? (group? (depth + 1)) fuel (push a [anchor .textStart]) { r with flags := {} }
            rest := by
  have hstart : piece? (group? (depth + 1)) {} ('^' :: '(' :: '?' :: ':' :: cs) =
      some (anchor .textStart, {}, '(' :: '?' :: ':' :: cs) := rfl
  rw [pieces?_cons (by decide) (by decide), hstart, Option.bind_some]
  simp only [push]
  rw [pieces?_cons (by decide) (by decide), piece?_colon]
  cases inside? (group? depth) {} cs with
  | none => rfl
  | some p =>
    obtain ⟨a, r, rest⟩ := p
    simp only [Option.bind_some]
    cases quantify? a rest <;> rfl

/-- The group around a text is closed behind it. -/
theorem inside?_text {text : String} (h : Enclosable text) :
    inside? (group? 62) {} (text.toList ++ closing) =
      (reading? 63 text).map fun (a, r, _) => (a, r, ['$']) := by
  have hless : alternatives? (group? 62) {} text.toList = reading? 63 text := h.reading?_eq
  have hclosed (b : Regex) (s : Reading) (left : List Char) :
      alternatives? (group? 62) {} text.toList ≠ some (b, s, ')' :: left) := by
    intro hb
    have hrest := (h _ (hless.symm.trans hb)).1
    cases hrest
  ext ⟨a, r, rest⟩
  rw [inside?_closing hclosed, hless, Option.map_eq_some_iff]
  constructor
  · rintro ⟨hread, rfl⟩
    exact ⟨_, hread, rfl⟩
  · rintro ⟨⟨b, s, left⟩, hread, ⟨⟩⟩
    obtain rfl : left = [] := (h _ hread).1
    exact ⟨hread, rfl⟩

/-- What is read of a text between the ends. -/
theorem reading?_wholeText {text : String} (h : Enclosable text) :
    reading? largestDepth (wholeText text) =
      (reading? largestDepth text).map fun (a, r, _) =>
        (enclose a, { r with flags := {} }, []) := by
  have hchars : (wholeText text).toList =
      '^' :: '(' :: '?' :: ':' :: (text.toList ++ closing) := by
    rw [wholeText, String.toList_append, String.toList_append]
    rfl
  rw [reading?, hchars, largestDepth, alternatives?, ways?]
  simp only [List.length_cons]
  rw [pieces?_wholeText, inside?_text h]
  cases hread : reading? 63 text with
  | none => rfl
  | some p =>
    obtain ⟨a, r, rest⟩ := p
    have hquantify : quantify? a ['$'] = some (a, ['$']) := rfl
    have hlast : pieces? (group? (62 + 1)) ((text.toList ++ closing).length + 3)
        (push a [anchor .textStart]) { r with flags := {} } ['$'] =
          some (enclose a, { r with flags := {} }, []) := by
      rw [← sequence_enclose]
      rfl
    have hnames : r.numbered = true → r.names = [] := (h _ hread).2.2
    have hguard : ¬(r.numbered && !r.names.isEmpty) = true := by
      simpa using hnames
    simp only [Option.map_some, Option.bind_some, hquantify, hlast]
    exact if_neg hguard

/-- **The pattern for whole texts** is that of the text, between the ends. -/
theorem parse?_wholeText {text : String} (h : Enclosable text) :
    Regex.parse? (wholeText text) =
      (Regex.parse? text).map fun (a, kept) => (enclose a, kept) := by
  rw [parse?_eq, parse?_eq, reading?_wholeText h]
  cases hread : reading? largestDepth text with
  | none => rfl
  | some p =>
    obtain ⟨a, r, rest⟩ := p
    obtain rfl : rest = [] := (h _ hread).1
    simp only [Option.map_some, Option.bind_some, true_and]
    split <;> rfl

end Regex

end JsonSchema
