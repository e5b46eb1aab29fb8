import JsonSchema.Regex.Pattern
import Mathlib.Data.List.Basic

/-!
# Making programs

Within the limits on sizes the program of a pattern is made unless a look back is at something
neither plain nor of fixed width. That does not depend on what stands around the pattern.

* `Regex.moderate`: the patterns whose plain parts are within the limits;
* `Regex.sighted`: the patterns that look back only at what can be looked back at;
* `Program.visit_makes`: of the moderate patterns, the sighted ones have a program;
* `Pattern.ofRegex?_isSome`: and are searched for.
-/

namespace JsonSchema

/-! ## Within the limits -/

namespace Regex

variable {kept : List Nat}

mutual
/-- The plain parts are within the limits, each and together. -/
def moderate (kept : List Nat) (a : Regex) : Bool :=
  (!a.plain kept || a.fits) && match a with
    | seq parts =>
      decide (sizeOfAll (parts.filter (plain kept)) ≤ largestSize) && allModerate kept parts
    | alt ways => allModerate kept ways
    | loop b _ _ _ | group _ b | look _ _ b | atomic b => b.moderate kept
    | empty | one _ | anchor _ | again _ _ _ => true

def allModerate (kept : List Nat) : List Regex → Bool
  | [] => true
  | a :: as => a.moderate kept && allModerate kept as
end

mutual
/-- Every look back is at something of fixed width or plain, or at alternatives each of which is. -/
def sighted (kept : List Nat) : Regex → Bool
  | empty | one _ | anchor _ | again _ _ _ => true
  | seq as | alt as => allSighted kept as
  | loop b _ _ _ | group _ b | look true _ b | atomic b => b.sighted kept
  | look false _ b =>
    if b.isAlt && !b.width.fixed then b.waysTraceable kept
    else if b.width.fixed then b.sighted kept else b.plain kept

def allSighted (kept : List Nat) : List Regex → Bool
  | [] => true
  | a :: as => a.sighted kept && allSighted kept as

/-- The alternatives that a pattern is made of can be looked back at. -/
def waysTraceable (kept : List Nat) : Regex → Bool
  | alt ways => allTraceable kept ways
  | _ => true

def allTraceable (kept : List Nat) : List Regex → Bool
  | [] => true
  | a :: as => (if a.width.fixed then a.sighted kept else a.plain kept) && allTraceable kept as
end

/-- What can be looked back at. -/
def traceable (kept : List Nat) (a : Regex) : Bool :=
  if a.width.fixed then a.sighted kept else a.plain kept

theorem plainAll_eq (as : List Regex) : plainAll kept as = as.all (plain kept) := by
  induction as with
  | nil => rfl
  | cons a as ih => rw [plainAll, List.all_cons, ih]

theorem allWellBounded_eq (as : List Regex) : allWellBounded as = as.all wellBounded := by
  induction as with
  | nil => rfl
  | cons a as ih => rw [allWellBounded, List.all_cons, ih]

theorem allSighted_eq (as : List Regex) : allSighted kept as = as.all (sighted kept) := by
  induction as with
  | nil => rfl
  | cons a as ih => rw [allSighted, List.all_cons, ih]

theorem allTraceable_eq (as : List Regex) : allTraceable kept as = as.all (traceable kept) := by
  induction as with
  | nil => rfl
  | cons a as ih => rw [allTraceable, List.all_cons, ih, traceable]

mutual
/-- A plain pattern does not look back. -/
theorem sighted_of_plain (a : Regex) (h : a.plain kept = true) : a.sighted kept = true := by
  cases a with
  | empty | one _ | anchor _ => rfl
  | seq as | alt as => exact allSighted_of_plain as h
  | loop a _ _ _ => exact sighted_of_plain a h
  | group _ a =>
    rw [plain, Bool.and_eq_true] at h
    exact sighted_of_plain a h.1
  | again _ _ _ | look _ _ _ | atomic _ => cases h

theorem allSighted_of_plain (as : List Regex) (h : plainAll kept as = true) :
    allSighted kept as = true := by
  cases as with
  | nil => rfl
  | cons a as =>
    rw [plainAll, Bool.and_eq_true] at h
    rw [allSighted, sighted_of_plain a h.1, allSighted_of_plain as h.2, Bool.and_self]
end

theorem fits_of_moderate {a : Regex} (h : a.moderate kept = true) (hplain : a.plain kept = true) :
    a.fits = true := by
  rw [moderate.eq_def, hplain, Bool.and_eq_true] at h
  exact h.1

theorem sizeOfAll_le {as bs : List Regex} (h : as.Sublist bs) : sizeOfAll as ≤ sizeOfAll bs := by
  induction h with
  | slnil => exact Nat.le_refl _
  | cons b _ ih => exact Nat.le_trans ih (Nat.le_add_left _ _)
  | cons_cons b _ ih => exact Nat.add_le_add_left ih _

/-- Parts that are within the limits each and together are so as one pattern. -/
theorem sequence_fits {as : List Regex} (hne : as ≠ []) (h : ∀ a ∈ as, a.fits = true)
    (hsize : sizeOfAll as ≤ largestSize) : (sequence as).fits = true := by
  match as, hne with
  | [a], _ => exact h a List.mem_cons_self
  | a :: b :: as, _ =>
    have hbounds : allWellBounded (a :: b :: as) = true := by
      rw [allWellBounded_eq, List.all_eq_true]
      intro c hc
      have hfits := h c hc
      rw [fits, Bool.and_eq_true] at hfits
      exact hfits.1
    rw [sequence, fits, wellBounded, hbounds, size, Bool.true_and, decide_eq_true_eq]
    · exact hsize
    · exact List.cons_ne_nil _ _
    · exact fun c hc => by cases hc

end Regex

/-! ## Making -/

namespace Program

open Regex

variable {α β : Type} {kept : List Nat}

/-- Whether making ends well, whatever the next number is. -/
def Makes (m : Making α) (b : Bool) : Prop := ∀ n, (m.run n).isSome = b

namespace Makes

theorem pure (x : α) : Makes (Pure.pure x) true := fun _ => rfl

theorem failure : Makes (Alternative.failure : Making α) false := fun _ => rfl

theorem fresh : Makes fresh true := fun _ => rfl

theorem bind {m : Making α} {f : α → Making β} {b c : Bool} (hm : Makes m b)
    (hf : ∀ x, Makes (f x) c) : Makes (m >>= f) (b && c) := by
  intro n
  have hn := hm n
  rw [StateT.run_bind]
  cases hmn : m.run n with
  | none =>
    rw [hmn] at hn
    rw [← hn]
    rfl
  | some p =>
    rw [hmn] at hn
    rw [← hn]
    exact hf p.1 p.2

theorem map {m : Making α} {b : Bool} (hm : Makes m b) (f : α → β) :
    Makes (do return f (← m)) b := by
  have hbind := hm.bind fun x => pure (f x)
  rw [Bool.and_true] at hbind
  exact hbind

theorem mapM {f : α → Making β} {p : α → Bool} {xs : List α}
    (h : ∀ x ∈ xs, Makes (f x) (p x)) : Makes (xs.mapM f) (xs.all p) := by
  induction xs with
  | nil => exact pure _
  | cons x xs ih =>
    rw [List.mapM_cons, List.all_cons]
    exact (h x List.mem_cons_self).bind fun y =>
      (ih fun z hz => h z (List.mem_cons_of_mem x hz)).map (y :: ·)

theorem ite {m m' : Making α} {b : Bool} {c : Prop} [Decidable c] (hm : c → Makes m b)
    (hm' : ¬c → Makes m' b) : Makes (if c then m else m') b := by
  split
  · exact hm ‹c›
  · exact hm' ‹¬c›

end Makes

theorem runAll_makes {parts : List Regex} (h : (sequence parts).fits = true) :
    Makes (runAll parts) true := by
  simp only [runAll, h, if_true]
  exact .pure _

/-- A part with its program, of which the limits and what can be looked back at are known. -/
structure IsMade (kept : List Nat) (part : Regex × Making Program) : Prop where
  fits (h : part.1.plain kept = true) : part.1.fits = true
  makes : Makes part.2 (part.1.sighted kept)

section

variable {parts : List (Regex × Making Program)} (h : ∀ p ∈ parts, IsMade kept p)

include h

theorem runTogether_makes {front : List (Regex × Making Program)} (hsub : front.Sublist parts)
    (hplain : ∀ p ∈ front, p.1.plain kept = true)
    (hsize : sizeOfAll ((parts.map Prod.fst).filter (plain kept)) ≤ largestSize) :
    Makes (visitSeq.runTogether front) true := by
  rw [visitSeq.runTogether]
  split
  · exact .pure _
  · rename_i hne
    refine (runAll_makes (sequence_fits ?_ ?_ ?_)).map fun a => [a]
    · rw [List.isEmpty_iff] at hne
      exact mt List.map_eq_nil_iff.1 hne
    · intro a ha
      obtain ⟨p, hp, rfl⟩ := List.mem_map.1 ha
      exact (h p (hsub.subset hp)).fits (hplain p hp)
    · have hfront : (front.map Prod.fst).filter (plain kept) = front.map Prod.fst := by
        rw [List.filter_eq_self]
        intro a ha
        obtain ⟨p, hp, rfl⟩ := List.mem_map.1 ha
        exact hplain p hp
      have hle := sizeOfAll_le ((hsub.map Prod.fst).filter (plain kept))
      rw [hfront] at hle
      exact Nat.le_trans hle hsize

/-- A sequence has a program if its parts have. -/
theorem visitSeq_makes (inside : Bool)
    (hsize : sizeOfAll ((parts.map Prod.fst).filter (plain kept)) ≤ largestSize) :
    Makes (visitSeq kept inside parts) (parts.all fun p => p.1.sighted kept) := by
  unfold visitSeq
  extract_lets settled closing front rest last middle
  have hrest : rest.Sublist parts := List.dropWhile_sublist _
  have hfront : ∀ p ∈ front, p.1.plain kept = true := fun p hp => by
    have hsettled := List.all_eq_true.1 List.all_takeWhile p hp
    rw [Bool.and_eq_true] at hsettled
    exact hsettled.1
  have hlast : ∀ p ∈ last, p.1.plain kept = true := fun p hp => by
    have hclosing := List.all_eq_true.1 List.all_takeWhile p (List.mem_reverse.1 hp)
    rw [Bool.and_eq_true] at hclosing
    exact hclosing.1
  have hmiddle : middle ++ last = rest := by
    have hsuffix : last <:+ rest := by
      rw [← List.reverse_prefix, List.reverse_reverse]
      exact List.takeWhile_prefix _
    rw [List.suffix_iff_eq_drop] at hsuffix
    conv => lhs; rw [hsuffix]
    exact List.take_append_drop _ _
  have hall : (parts.all fun p => p.1.sighted kept) =
      (true && (middle.all (fun p => p.1.sighted kept) && true)) := by
    have hplain {part : List (Regex × Making Program)} (hpart : ∀ p ∈ part, p.1.plain kept = true) :
        (part.all fun p => p.1.sighted kept) = true :=
      List.all_eq_true.2 fun p hp => sighted_of_plain p.1 (hpart p hp)
    rw [← List.takeWhile_append_dropWhile (p := settled) (l := parts), List.all_append]
    change (front.all _ && rest.all _) = _
    rw [← hmiddle, List.all_append, hplain hfront, hplain hlast]
  have hlastsub : last.Sublist parts :=
    (hmiddle ▸ List.sublist_append_right middle last).trans hrest
  rw [hall]
  refine (runTogether_makes h (List.takeWhile_sublist _) hfront hsize).bind fun fs => ?_
  have hsub : middle.Sublist parts := (List.take_sublist _ _).trans hrest
  refine (Makes.mapM fun p hp => (h p (hsub.subset hp)).makes).bind fun ms => ?_
  exact (runTogether_makes h hlastsub hlast hsize).map fun ls => seq (fs ++ ms ++ ls)

omit h in
theorem lookBack_makes {part : Regex × Making Program} (hpart : IsMade kept part)
    (positive : Bool) : Makes (lookBack kept positive part) (part.1.traceable kept) := by
  simp only [lookBack, traceable]
  split
  · exact hpart.makes.map fun a => look positive (seq [back part.1.width.least, a])
  · cases hplain : part.1.plain kept with
    | true =>
      rw [hpart.fits hplain]
      exact .pure _
    | false => exact .failure

theorem lookBackAll_makes (positive : Bool) :
    Makes (lookBackAll kept positive parts) (parts.all fun p => p.1.traceable kept) :=
  (Makes.mapM fun p hp => lookBack_makes (h p hp) positive).map fun ps =>
    if positive then alt ps else seq ps

end

theorem visitAll_eq_map (inside : Bool) (as : List Regex) :
    visitAll kept inside as = as.map (visit kept inside) := by
  induction as with
  | nil => rfl
  | cons a as ih => rw [visitAll, List.map_cons, ih]

theorem zip_visitAll (inside : Bool) (as : List Regex) :
    as.zip (visitAll kept inside as) = as.map fun a => (a, visit kept inside a) := by
  rw [visitAll_eq_map, List.map_prod_left_eq_zip]

mutual
/-- **The program** of a moderate pattern is made if the pattern is sighted. -/
theorem visit_makes (inside : Bool) (a : Regex) (h : a.moderate kept = true) :
    Makes (visit kept inside a) (a.sighted kept) := by
  rw [visit.eq_def]
  split
  · rename_i hplain
    rw [Bool.and_eq_true] at hplain
    rw [sighted_of_plain a hplain.2]
    exact runAll_makes (fits_of_moderate h hplain.2)
  · have hfits := fits_of_moderate h
    rw [moderate.eq_def, Bool.and_eq_true] at h
    have hparts := h.2
    cases a with
    | empty => exact .pure _
    | one s => exact runAll_makes (hfits rfl)
    | anchor k => exact .pure _
    | seq parts =>
      rw [Bool.and_eq_true, decide_eq_true_eq] at hparts
      have hmade : ∀ p ∈ parts.map fun a => (a, visit kept true a), IsMade kept p :=
        List.forall_mem_map.2 (visitAll_makes true parts hparts.2)
      have hseq := visitSeq_makes hmade inside (by simpa [Function.comp_def] using hparts.1)
      rw [List.all_map] at hseq
      rw [sighted, allSighted_eq]
      simp only [zip_visitAll]
      exact hseq
    | alt ways =>
      have hmade := visitAll_makes inside ways hparts
      rw [sighted, allSighted_eq]
      simp only [visitAll_eq_map, List.mapM_map]
      exact (Makes.mapM fun a ha => (hmade a ha).makes).map alt
    | loop b least most greedy =>
      have hb (inside : Bool) := visit_makes inside b hparts
      refine .ite (fun _ => (hb _).map _) fun _ => .ite (fun _ => ?_) fun _ => (hb _).map _
      exact Makes.fresh.bind fun index => (hb _).map fun a => rounds index a least greedy
    | group index b => exact (visit_makes inside b hparts).map (group index)
    | again index anyCase _ => exact .pure _
    | look ahead positive b =>
      have hb : IsMade kept (b, visit kept false b) :=
        ⟨fits_of_moderate hparts, visit_makes false b hparts⟩
      cases ahead with
      | true => exact hb.makes.map (look positive)
      | false =>
        rw [sighted]
        simp only
        split
        · rename_i hways
          cases b with
          | alt ways =>
            have halt : (Regex.alt ways).moderate kept = true := hparts
            rw [moderate.eq_def, Bool.and_eq_true] at halt
            have hmade : ∀ p ∈ ways.map fun a => (a, visit kept false a), IsMade kept p :=
              List.forall_mem_map.2 (visitAll_makes false ways halt.2)
            have hback := lookBackAll_makes hmade positive
            rw [List.all_map] at hback
            rw [alternatives, zip_visitAll, waysTraceable, allTraceable_eq]
            exact hback
          | _ => cases hways
        · exact lookBack_makes hb positive
    | atomic b => exact (visit_makes false b hparts).map atomic

theorem visitAll_makes (inside : Bool) (as : List Regex) (h : allModerate kept as = true) :
    ∀ a ∈ as, IsMade kept (a, visit kept inside a) := by
  cases as with
  | nil => exact fun a ha => absurd ha List.not_mem_nil
  | cons a as =>
    rw [allModerate, Bool.and_eq_true] at h
    exact List.forall_mem_cons.2
      ⟨⟨fits_of_moderate h.1, visit_makes inside a h.1⟩, visitAll_makes inside as h.2⟩
end

end Program

/-! ## Patterns -/

namespace Regex

variable {kept : List Nat}

/-- A look ahead at the end looks back at the same as a part. -/
theorem sighted_freeEnd (a : Regex) : a.freeEnd.sighted kept = a.sighted kept := by
  unfold freeEnd
  split
  · rename_i parts
    split
    · rename_i b hlast
      obtain ⟨front, rfl⟩ : ∃ front, parts = front ++ [look true true b] := by
        obtain ⟨front, hfront⟩ := List.getLast?_eq_some_iff.1 hlast
        exact ⟨front, hfront⟩
      simp [sighted, allSighted_eq]
    · rfl
  · rfl

end Regex

/-- **A pattern within the limits** is searched for unless it looks back at what it cannot. -/
theorem Pattern.ofRegex?_isSome {a : Regex} {kept : List Nat}
    (h : a.freeEnd.moderate kept = true) : (ofRegex? a kept).isSome = a.sighted kept := by
  rw [← Regex.sighted_freeEnd]
  unfold ofRegex?
  extract_lets freed
  split
  · rename_i hplain
    rw [if_pos (Regex.fits_of_moderate h hplain), Regex.sighted_of_plain _ hplain]
    rfl
  · rw [Option.isSome_map, StateT.run'_eq, Option.map_eq_map, Option.isSome_map]
    exact Program.visit_makes false _ h 0

end JsonSchema
