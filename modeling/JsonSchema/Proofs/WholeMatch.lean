import JsonSchema.Proofs.Making
import JsonSchema.Proofs.Searching
import JsonSchema.Proofs.SingleRule
import JsonSchema.Proofs.Threads
import JsonSchema.Proofs.Wrapping

/-!
# Patterns of formats

A format pattern is searched for between the ends of the text, and that is said by putting its text
between an opening and a closing part. What holds of formats is stated for the patterns that are
read here. A text that is not read may still be a pattern of a larger syntax, in which the closing
part can get lost, as behind a comment.

* `Pattern.accepts_enclose`: a plain pattern between the ends is found in the texts it covers;
* `Pattern.accepts_enclose_of_not_plain`: any other one is found by the search for the pattern;
* `Pattern.ofRegex?_enclose_isSome`: it can be searched for if the pattern can;
* `Options.format_matches_whole`: a format accepts the strings that its pattern covers;
* `Options.format_of_unbalanced`: a format of a text that is no pattern.
-/

namespace JsonSchema

namespace Regex

variable {kept : List Nat} {a : Regex} {text : Array Char}

/-! ## Between the ends -/

theorem plain_whole (a : Regex) : (whole a).plain kept = a.plain kept := by
  simp [whole, plain, plainAll, Anchor.plain]

theorem plain_enclose (a : Regex) : (enclose a).plain kept = a.plain kept := by
  cases a with
  | empty => rfl
  | _ => exact plain_whole _

theorem enclose_of_not_plain (h : a.plain kept = false) : enclose a = whole a := by
  cases a with
  | empty => cases h
  | _ => rfl

theorem freeEnd_enclose (a : Regex) : (enclose a).freeEnd = enclose a := by cases a <;> rfl

theorem sighted_whole (a : Regex) : (whole a).sighted kept = a.sighted kept := by
  simp [whole, sighted, allSighted]

theorem moderate_whole (hplain : a.plain kept = false) (h : a.moderate kept = true) :
    (whole a).moderate kept = true := by
  have hwhole := (plain_whole a).trans hplain
  have hends : [anchor .textStart, a, anchor .textEnd].filter (plain kept) =
      [anchor .textStart, anchor .textEnd] := by
    simp [List.filter, hplain, plain, Anchor.plain]
  have hanchor (k : Anchor) : (anchor k).moderate kept = true := by
    rw [moderate.eq_def]
    simp [fits, wellBounded, size, largestSize]
  rw [moderate.eq_def, hwhole]
  simp only [whole, hends, allModerate, hanchor, h]
  rfl

/-- A plain pattern between the ends matches a text from its start to its end, as the pattern
does. -/
theorem matches_enclose {p q : Nat} :
    (enclose a).Matches text p q ↔ p = 0 ∧ q = text.size ∧ a.Matches text 0 text.size := by
  cases a with
  | empty =>
    rw [← matches_whole]
    simp [enclose, whole, Matches, MatchesAll]
  | _ => exact matches_whole

theorem freeEnd_of_plain (h : a.plain kept = true) : a.freeEnd = a := by
  unfold freeEnd
  split
  · rename_i parts
    split
    · rename_i b hlast
      rw [plain, plainAll_eq, List.all_eq_true] at h
      cases h _ (List.mem_of_getLast? hlast)
    · rfl
  · rfl

theorem fits_of_enclose (h : (enclose a).fits = true) : a.fits = true := by
  have hwhole (h : (whole a).fits = true) : a.fits = true := by
    simp only [whole, fits, wellBounded, allWellBounded, size, sizeOfAll, Bool.and_eq_true,
      decide_eq_true_eq] at h ⊢
    obtain ⟨⟨-, hbounds, -⟩, hsize⟩ := h
    exact ⟨hbounds, by omega⟩
  cases a with
  | empty => rfl
  | _ => exact hwhole h

/-- Whether the limits on sizes treat a pattern alike alone and between the ends. -/
def keepsLimits (kept : List Nat) (a : Regex) : Bool :=
  if a.plain kept then !a.fits || (enclose a).fits else a.moderate kept && a.freeEnd.moderate kept

end Regex

namespace Program

open Regex

variable {kept : List Nat} {a : Regex}

theorem runAll_anchor (k : Anchor) :
    runAll [Regex.anchor k] = pure (.run (.ofRegex (.anchor k))) := by
  have hfits : (Regex.anchor k).fits = true := by
    simp [fits, wellBounded, Regex.size, largestSize]
  rw [runAll, Regex.sequence]
  simp only [hfits, if_true]

/-- The program of a pattern between the ends. -/
theorem visit_whole (hplain : a.plain kept = false) :
    visit kept false (whole a) = do return between (← visit kept true a) := by
  have hwhole := (plain_whole a).trans hplain
  have hanchor (k : Anchor) : (Regex.anchor k).width.fixed = true := rfl
  rw [visit.eq_def, hwhole, if_neg (by decide), whole]
  have hplainAnchor : (Regex.anchor .textStart).plain kept = true ∧
      (Regex.anchor .textEnd).plain kept = true := ⟨rfl, rfl⟩
  have hend (k : Anchor) (m : Making Program) :
      visitSeq.runTogether [(Regex.anchor k, m)] = pure [.run (.ofRegex (.anchor k))] := by
    rw [visitSeq.runTogether]
    simp [runAll_anchor]
  simp [zip_visitAll, visitSeq, hplainAnchor, hplain, hanchor, hend, between]

end Program

/-! ## Searching -/

namespace Pattern

open Regex

variable {kept : List Nat} {a : Regex} {p : Pattern}

theorem ofRegex?_of_plain (h : a.plain kept = true) :
    ofRegex? a kept = if a.fits then some (.plain (.ofRegex a)) else none := by
  rw [ofRegex?, freeEnd_of_plain h]
  simp only [h, if_true]

/-- **Between the ends** a pattern can be searched for if it can. -/
theorem ofRegex?_enclose_isSome (h : a.keepsLimits kept = true) :
    (ofRegex? (enclose a) kept).isSome = (ofRegex? a kept).isSome := by
  rw [keepsLimits] at h
  cases hplain : a.plain kept with
  | true =>
    rw [hplain, if_pos rfl, Bool.or_eq_true, Bool.not_eq_true'] at h
    have hfits : (enclose a).fits = a.fits := by
      obtain h | h := h
      · rw [h, ← Bool.not_eq_true]
        exact mt fits_of_enclose (Bool.not_eq_true _ ▸ h)
      · rw [h, fits_of_enclose h]
    rw [ofRegex?_of_plain hplain, ofRegex?_of_plain ((plain_enclose a).trans hplain), hfits]
    split <;> rfl
  | false =>
    rw [hplain, if_neg Bool.false_ne_true, Bool.and_eq_true] at h
    have hwhole : (enclose a).freeEnd.moderate kept = true := by
      rw [freeEnd_enclose, enclose_of_not_plain hplain]
      exact moderate_whole hplain h.1
    rw [ofRegex?_isSome h.2, ofRegex?_isSome hwhole, enclose_of_not_plain hplain, sighted_whole]

/-- A pattern that is not plain is searched for between the ends by its program. -/
theorem ofRegex?_enclose_of_not_plain (hplain : a.plain kept = false) :
    ofRegex? (enclose a) kept =
      ((Program.visit kept true a).run' 0).map fun program => .program true program.between := by
  have hwhole := (plain_whole a).trans hplain
  rw [ofRegex?, freeEnd_enclose, enclose_of_not_plain hplain]
  simp only [hwhole, Program.visit_whole hplain, Bool.false_eq_true, if_false]
  simp [StateT.run'_eq, Function.comp_def, isAnchored, whole]

/-- **A plain pattern between the ends** is found in the texts that it covers. -/
theorem accepts_enclose (hplain : a.plain kept = true) (hp : ofRegex? (enclose a) kept = some p)
    (s : String) :
    p.accepts s = true ↔ a.Matches s.toList.toArray 0 s.toList.toArray.size := by
  have henclose := (plain_enclose a).trans hplain
  rw [ofRegex?_of_plain henclose] at hp
  split at hp
  · rename_i hfits
    cases hp
    rw [fits, Bool.and_eq_true] at hfits
    simp only [accepts, Automaton.occursIn_iff,
      Automaton.accepts_ofRegex henclose hfits.1, matches_enclose]
    constructor
    · rintro ⟨_, _, _, _, _, h⟩
      exact h
    · intro h
      exact ⟨0, Nat.zero_le _, _, rfl, rfl, h⟩
  · cases hp

/-- Any other pattern between the ends is found if the search for the pattern from the start comes
to the end of the text, within its limits. -/
theorem accepts_enclose_of_not_plain (hplain : a.plain kept = false)
    (hp : ofRegex? (enclose a) kept = some p) (s : String) :
    p.accepts s = true ↔ ∃ program n c, (Program.visit kept true a).run' 0 = some program ∧
      Search.ComesTo s.toList.toArray n program.search c ∧
        c.position = s.toList.toArray.size ∧ n + 4 ≤ Search.largestSteps := by
  rw [ofRegex?_enclose_of_not_plain hplain, Option.map_eq_some_iff] at hp
  obtain ⟨program, hprogram, rfl⟩ := hp
  rw [accepts, Program.occursIn_between]
  constructor
  · rintro ⟨n, c, hc⟩
    exact ⟨program, n, c, hprogram, hc⟩
  · rintro ⟨program', n, c, hprogram', hc⟩
    cases hprogram.symm.trans hprogram'
    exact ⟨n, c, hc⟩

end Pattern

/-! ## Formats -/

namespace Options

variable {o : Options}

theorem parse?_wholeText {text : String} {a : Regex} {kept : List Nat}
    (hread : Regex.parse? text = some (a, kept)) (htext : Regex.Enclosable text) :
    Pattern.parse? (wholeText text) = Pattern.ofRegex? (Regex.enclose a) kept := by
  rw [Pattern.parse?, Regex.parse?_wholeText htext, hread]
  rfl

theorem isPattern_wholeText {text : String} {a : Regex} {kept : List Nat}
    (hread : Regex.parse? text = some (a, kept)) (htext : Regex.Enclosable text)
    (hlimits : a.keepsLimits kept = true) : IsPattern (wholeText text) ↔ IsPattern text := by
  rw [IsPattern, IsPattern, parse?_wholeText hread htext, Pattern.parse?, hread]
  exact Bool.eq_iff_iff.1 (Pattern.ofRegex?_enclose_isSome hlimits)

/-- A format accepts the strings in which its pattern for whole texts occurs. -/
theorem isValid_of_build_format (ho : o.keywords.lookup "format" = none) {name text : String}
    (hname : o.formats.lookup name = some (.pattern text)) {w : Validator}
    (hw : o.build (.object [("format", .string name)]) = .ok w) :
    ∃ p, Pattern.parse? (wholeText text) = some p ∧
      ∀ s, w.isValid (.string s) = true ↔ p.accepts s = true := by
  rw [build_format ho hname, readPattern] at hw
  cases hp : Pattern.parse? (wholeText text) with
  | none =>
    rw [hp] at hw
    cases hw
  | some p =>
    rw [hp] at hw
    cases hw
    refine ⟨p, rfl, fun s => ?_⟩
    rw [Node.HasOnly.isValid_iff (r := .format name p.accepts) ⟨rfl, _, rfl⟩, Rule.fault?,
      Rule.demand, ite_eq_left_iff, imp_iff_not (Option.some_ne_none _), not_not]

/-- **A format pattern** that is read, and that the closing part closes, is one if it is a pattern
by itself. If it is plain, the format accepts the strings that it covers. -/
theorem format_matches_whole (ho : o.keywords.lookup "format" = none) {name text : String}
    (hname : o.formats.lookup name = some (.pattern text)) {a : Regex} {kept : List Nat}
    (hread : Regex.parse? text = some (a, kept)) (htext : Regex.Enclosable text)
    (hlimits : a.keepsLimits kept = true) :
    ((∃ w, o.build (.object [("format", .string name)]) = .ok w) ↔ IsPattern text) ∧
      (a.plain kept = true → ∀ w, o.build (.object [("format", .string name)]) = .ok w → ∀ s,
        w.isValid (.string s) = true ↔ a.Matches s.toList.toArray 0 s.toList.toArray.size) := by
  constructor
  · rw [build_format ho hname, ← isPattern_wholeText hread htext hlimits]
    exact Reads.succeeds_map readPattern_succeeds
  · intro hplain w hw s
    obtain ⟨p, hp, hvalid⟩ := isValid_of_build_format ho hname hw
    rw [parse?_wholeText hread htext] at hp
    rw [hvalid, Pattern.accepts_enclose hplain hp]

/-- Alternatives of which the first is a beginning of the second. -/
theorem format_matches_whole_alternatives :
    Regex.parse? "a|ab" = some (.alt [.char 'a', .seq [.char 'a', .char 'b']], []) ∧
      Regex.Enclosable "a|ab" ∧
      ∃ w, (withFormat {} "f" (.pattern "a|ab")).build (.object [("format", .string "f")]) = .ok w ∧
        w.isValid (.string "ab") = true ∧ w.isValid (.string "abc") = false := by
  have htext : Regex.Enclosable "a|ab" := by decide +kernel
  have hread : Regex.parse? "a|ab" =
      some (.alt [.char 'a', .seq [.char 'a', .char 'b']], []) := rfl
  have hname : (withFormat {} "f" (.pattern "a|ab")).formats.lookup "f" =
      some (.pattern "a|ab") := rfl
  obtain ⟨hbuilds, h⟩ := format_matches_whole rfl hname hread htext (by decide +kernel)
  have hpattern : (Pattern.parse? "a|ab").isSome = true := by decide +kernel
  obtain ⟨w, hw⟩ := hbuilds.2 hpattern
  refine ⟨hread, htext, w, hw, (h rfl w hw "ab").2 ?_, ?_⟩
  · exact .inr (.inl ⟨1, ⟨⟨'a', rfl, by decide⟩, rfl⟩, 2, ⟨⟨'b', rfl, by decide⟩, rfl⟩, rfl⟩)
  · rw [← Bool.not_eq_true, h rfl w hw]
    simp [Regex.Matches, Regex.MatchesAny, Regex.MatchesAll, Regex.char]

/-- A text that closes a group it did not open and opens another is no pattern, but is one between
the ends, which accepts what begins with its first part. -/
theorem format_of_unbalanced :
    ¬IsPattern "a)|(?:b" ∧ ¬Regex.Enclosable "a)|(?:b" ∧
      ∃ w, (withFormat {} "f" (.pattern "a)|(?:b")).build (.object [("format", .string "f")]) =
          .ok w ∧
        w.isValid (.string "ax") = true := by
  have hrun : ((withFormat {} "f" (.pattern "a)|(?:b")).build
      (.object [("format", .string "f")])).toOption.map
        (fun w => w.isValid (.string "ax")) = some true := by decide +kernel
  have hpattern : ¬(Pattern.parse? "a)|(?:b").isSome = true := by decide +kernel
  exact ⟨hpattern, by decide +kernel, build_of_run hrun⟩

end Options

end JsonSchema
