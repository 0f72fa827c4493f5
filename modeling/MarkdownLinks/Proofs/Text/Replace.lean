import Mathlib.Data.List.Basic
import MarkdownLinks.Text.Basic

/-! What replacing one character, or a text, by another text leaves alone and what it brings in. -/

namespace MarkdownLinks
namespace Text

/-- Replaces a text wherever it stands, from left to right. -/
def replace (t old new : Text) : Text := go 0 t
where
  go : Nat → Text → Text
    | _, [] => []
    | left + 1, _ :: t => go left t
    | 0, c :: t => if old.isPrefixOf (c :: t) then new ++ go (old.length - 1) t else c :: go 0 t

theorem replaceChar_self (t : Text) (c : Char) : t.replaceChar c [c] = t := by
  rw [replaceChar]
  refine (List.flatMap_congr fun d _ => ?_).trans (List.flatMap_singleton' t)
  split
  · rename_i same
    rw [same]
  · rfl

theorem replaceChar_append (s t : Text) (c : Char) (new : Text) :
    (s ++ t).replaceChar c new = s.replaceChar c new ++ t.replaceChar c new := List.flatMap_append

theorem replaceChar_of_not_mem {t : Text} {c : Char} (absent : c ∉ t) (new : Text) : t.replaceChar c new = t := by
  refine (List.flatMap_congr fun d inside => if_neg ?_).trans (List.flatMap_singleton' t)
  rintro rfl
  exact absent inside

theorem not_mem_replaceChar {t new : Text} {c d : Char} (absent : d ∉ t) (other : d ∉ new) : d ∉ t.replaceChar c new := by
  intro inside
  obtain ⟨e, among, here⟩ := List.mem_flatMap.mp inside
  split at here
  · exact other here
  · exact absent (List.mem_singleton.mp here ▸ among)

theorem not_mem_replaceChar_self {c : Char} {new : Text} (other : c ∉ new) (t : Text) : c ∉ t.replaceChar c new := by
  intro inside
  obtain ⟨e, -, here⟩ := List.mem_flatMap.mp inside
  split at here
  · exact other here
  · rename_i differs
    exact differs (List.mem_singleton.mp here).symm

theorem replace_singleton (t : Text) (c : Char) (new : Text) : t.replace [c] new = t.replaceChar c new := by
  rw [replace]
  induction t with
  | nil => rfl
  | cons d t ih =>
    rw [replace.go, List.length_singleton, ih, replaceChar, replaceChar, List.flatMap_cons]
    by_cases same : d = c
    · simp [same]
    · simp [same, Ne.symm same]

theorem replace_of_not_mem {t : Text} {c : Char} (absent : c ∉ t) (old new : Text) : t.replace (c :: old) new = t := by
  rw [replace]
  induction t with
  | nil => rfl
  | cons d t ih =>
    rw [List.mem_cons, not_or] at absent
    rw [replace.go, List.isPrefixOf_cons_cons, beq_eq_false_iff_ne.mpr absent.1, Bool.false_and,
      if_neg Bool.false_ne_true, ih absent.2]

end Text
end MarkdownLinks
