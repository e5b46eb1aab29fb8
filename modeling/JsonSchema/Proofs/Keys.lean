import JsonSchema.Proofs.Identifiers
import Mathlib.Data.List.TakeWhile

/-!
# Keys of external documents

A reference that is no identifier and no pointer selects an external document by its key, which is
the whole reference if it has no number sign. But one slash at the end is dropped before the key is
looked up. So a document that is registered under a key with a slash at the end cannot be selected:
the reference denotes nothing, or the document of the key without the slash.

* `IsKey`: texts that are neither pointers nor cut at a number sign;
* `key_selects`: what such a reference denotes;
* `key_with_slash_lost`: a key that is lost.
-/

namespace JsonSchema

/-- The text has no number sign, and the text behind its percent escapes is not empty and starts
with neither a slash nor a number sign. -/
def IsKey (key : String) : Prop :=
  '#' ∉ key.toList ∧
    ∃ c cs, (percentDecode? key.toList).getD key.toList = c :: cs ∧ c ≠ '/' ∧ c ≠ '#'

instance decidableStart (cs : List Char) : Decidable (∃ c ds, cs = c :: ds ∧ c ≠ '/' ∧ c ≠ '#') :=
  match cs with
  | [] => .isFalse nofun
  | c :: ds => decidable_of_iff (c ≠ '/' ∧ c ≠ '#') (by simp)

instance decidableIsKey (key : String) : Decidable (IsKey key) :=
  inferInstanceAs (Decidable (_ ∧ _))

theorem Pointer.dropSign_eq_self {cs : List Char} (h : cs.head? ≠ some '#') : dropSign cs = cs := by
  unfold dropSign
  split
  · simp at h
  · rfl

theorem IsKey.not_isPointer {key : String} (h : IsKey key) :
    Pointer.isPointer ((percentDecode? key.toList).getD key.toList) = false := by
  obtain ⟨-, c, cs, hcs, hslash, hsign⟩ := h
  have hdrop : Pointer.dropSign (c :: cs) = c :: cs :=
    Pointer.dropSign_eq_self (by simpa using hsign)
  rw [hcs, Pointer.isPointer, hdrop]
  exact beq_eq_false_iff_ne.2 hslash

theorem cutFragment_eq {cs : List Char} (h : '#' ∉ cs) : cutFragment cs = (cs, none) := by
  have hdrop : cs.dropWhile (· != '#') = [] := by
    rw [List.dropWhile_eq_nil_iff]
    intro c hc
    exact bne_iff_ne.2 fun heq => h (heq ▸ hc)
  rw [cutFragment, hdrop]

/-- Without a number sign the text is the key, but for a slash at the end. -/
theorem resolve?_eq_lookup {root : Json} {key : String} (hkey : IsKey key)
    (hid : ¬root.HoldsId key) (documents : Documents) :
    resolve? root documents key =
      documents.lookup (String.ofList (Pointer.dropSlash key.toList)) := by
  have htext : Pointer.dropSign key.toList = key.toList :=
    Pointer.dropSign_eq_self fun h => hkey.1 (List.mem_of_head? h)
  have hsign : '#' ∉ Pointer.dropSlash key.toList := by
    rw [Pointer.dropSlash]
    split
    · exact fun h => hkey.1 ((List.dropLast_sublist _).mem h)
    · exact hkey.1
  rw [resolve?, Json.findId?_eq_none_iff.2 hid]
  simp only [htext, hkey.not_isPointer, cond_false]
  rw [resolveExternal?, cutFragment_eq hsign]

/-- **What a key denotes.** It selects the document that is registered under it, and no other one,
unless it ends with a slash: then it selects what is registered without this slash. -/
theorem key_selects {root document : Json} {documents : Documents} {key : String}
    (hkey : IsKey key) (hid : ¬root.HoldsId key) (hd : documents.lookup key = some document) :
    (key.toList.getLast? ≠ some '/' → resolve? root documents key = some document) ∧
      ∀ front, key = front ++ "/" → resolve? root documents key = documents.lookup front := by
  rw [resolve?_eq_lookup hkey hid]
  constructor
  · intro hlast
    rw [Pointer.dropSlash, if_neg hlast, String.ofList_toList, hd]
  · rintro front rfl
    have hchars : (front ++ "/").toList = front.toList ++ ['/'] := by
      rw [String.toList_append]
      rfl
    rw [Pointer.dropSlash, hchars, List.getLast?_concat, if_pos rfl, List.dropLast_concat,
      String.ofList_toList]

/-- A key with percent escapes. -/
theorem key_selects_encoded :
    IsKey "my%20doc" ∧ ¬(Json.object []).HoldsId "my%20doc" ∧
      [("my%20doc", Json.bool true)].lookup "my%20doc" = some (.bool true) ∧
      resolve? (.object []) [("my%20doc", .bool true)] "my%20doc" = some (.bool true) := by
  have hkey : IsKey "my%20doc" := by decide +kernel
  have hid : ¬(Json.object []).HoldsId "my%20doc" := Json.findId?_eq_none_iff.1 (by decide +kernel)
  have hd : [("my%20doc", Json.bool true)].lookup "my%20doc" = some (.bool true) := by
    decide +kernel
  exact ⟨hkey, hid, hd, (key_selects hkey hid hd).1 (by decide +kernel)⟩

/-- A registered key that denotes nothing, and the same key when it denotes another document. -/
theorem key_with_slash_lost :
    IsKey "http://example.com/" ∧ ¬(Json.object []).HoldsId "http://example.com/" ∧
      [("http://example.com/", Json.bool true)].lookup "http://example.com/" =
        some (.bool true) ∧
      resolve? (.object []) [("http://example.com/", .bool true)] "http://example.com/" = none ∧
      resolve? (.object []) [("http://example.com/", .bool true), ("http://example.com", .object [])]
        "http://example.com/" = some (.object []) := by
  refine ⟨by decide +kernel, Json.findId?_eq_none_iff.1 (by decide +kernel), ?_, ?_, ?_⟩ <;>
    decide +kernel

end JsonSchema
