import Mathlib.Data.List.Infix
import MarkdownLinks.Text.Lines

/-! Texts as lists of lines. A line keeps its line feed, so that the lines of a text make up the text. -/

namespace MarkdownLinks.Text

/-- The lines of a text with their line feeds; behind a line feed at the very end there is no line. -/
def lines : Text → List Text
  | [] => []
  | c :: t =>
    if c = '\n' then ['\n'] :: lines t
    else match lines t with
      | [] => [[c]]
      | line :: rest => (c :: line) :: rest

theorem lines_flatten (t : Text) : (lines t).flatten = t := by
  induction t with
  | nil => rfl
  | cons c t ih =>
    rw [lines]
    split
    · rename_i feed
      rw [feed, List.flatten_cons, ih, List.singleton_append]
    · split
      · rename_i absent
        rw [absent] at ih
        rw [← ih]
        rfl
      · rename_i line rest more
        rw [more] at ih
        rw [← ih]
        rfl

theorem lines_eq_cons {t : Text} (filled : t ≠ []) : lines t = t.splitFirstLine.1 :: lines t.splitFirstLine.2 := by
  induction t with
  | nil => exact absurd rfl filled
  | cons c t ih =>
    rw [lines, splitFirstLine]
    split
    · rfl
    · cases t with
      | nil => rfl
      | cons d t => rw [ih (List.cons_ne_nil d t)]

theorem splitFirstLine_rest_lt (c : Char) (t : Text) : (splitFirstLine (c :: t)).2.length < (c :: t).length := by
  induction t generalizing c with
  | nil =>
    rw [splitFirstLine]
    split <;> exact Nat.zero_lt_one
  | cons d t ih =>
    rw [splitFirstLine]
    split
    · exact Nat.lt_succ_self _
    · exact (ih d).trans (Nat.lt_succ_self _)

theorem splitFirstLine_append {line : Text} (unbroken : '\n' ∉ line) (rest : Text) :
    splitFirstLine (line ++ '\n' :: rest) = (line ++ ['\n'], rest) := by
  induction line with
  | nil => rfl
  | cons c line ih =>
    have other : c ≠ '\n' := fun same => unbroken (same ▸ List.mem_cons_self)
    rw [List.cons_append, splitFirstLine, if_neg other, ih fun inside => unbroken (List.mem_cons_of_mem c inside)]
    rfl

theorem splitFirstLine_cons {c : Char} (other : c ≠ '\n') (t : Text) :
    splitFirstLine (c :: t) = (c :: (splitFirstLine t).1, (splitFirstLine t).2) := by
  rw [splitFirstLine, if_neg other]

/-- A line has a line feed at its end or none. -/
def IsLine (line : Text) : Prop := ∃ body stop, line = body ++ stop ∧ '\n' ∉ body ∧ (stop = [] ∨ stop = ['\n'])

theorem IsLine.cons {line : Text} (isLine : IsLine line) {c : Char} (other : c ≠ '\n') : IsLine (c :: line) := by
  obtain ⟨body, stop, rfl, plain, ends⟩ := isLine
  refine ⟨c :: body, stop, rfl, ?_, ends⟩
  rw [List.mem_cons, not_or]
  exact ⟨other.symm, plain⟩

/-- Nothing stands behind the line feed of a line. -/
theorem IsLine.eq_nil_of_feed {before after : Text} (isLine : IsLine (before ++ '\n' :: after)) : after = [] := by
  obtain ⟨body, stop, same, plain, ends⟩ := isLine
  induction before generalizing body with
  | nil =>
    cases body with
    | nil =>
      rcases ends with rfl | rfl
      · exact nomatch same
      · exact (List.cons.inj same).2
    | cons d body => exact absurd (List.cons.inj same).1 fun first => plain (first ▸ List.mem_cons_self)
  | cons c before ih =>
    cases body with
    | nil =>
      rcases ends with rfl | rfl
      · exact nomatch same
      · exact absurd (List.cons.inj same).2 (by simp)
    | cons d body => exact ih body (List.cons.inj same).2 fun inside => plain (List.mem_cons_of_mem d inside)

theorem isLine_of_mem_lines {t line : Text} (member : line ∈ lines t) : IsLine line := by
  induction t generalizing line with
  | nil => exact absurd member List.not_mem_nil
  | cons c t ih =>
    rw [lines] at member
    split at member
    · rcases List.mem_cons.mp member with rfl | later
      · exact ⟨[], ['\n'], rfl, List.not_mem_nil, Or.inr rfl⟩
      · exact ih later
    · rename_i other
      split at member
      · rw [List.mem_singleton.mp member]
        exact IsLine.cons ⟨[], [], rfl, List.not_mem_nil, Or.inl rfl⟩ other
      · rename_i first rest more
        rw [more] at ih
        rcases List.mem_cons.mp member with rfl | later
        · exact (ih List.mem_cons_self).cons other
        · exact ih (List.mem_cons_of_mem first later)

/-- Changing characters other than line feeds keeps the lines. -/
theorem lines_map {f : Char → Char} (feeds : ∀ c, f c = '\n' ↔ c = '\n') (t : Text) :
    lines (t.map f) = (lines t).map (·.map f) := by
  induction t with
  | nil => rfl
  | cons c t ih =>
    rw [List.map_cons, lines, lines, ih]
    by_cases feed : c = '\n'
    · rw [if_pos feed, if_pos ((feeds c).mpr feed), List.map_cons, List.map_singleton, (feeds '\n').mpr rfl]
    · rw [if_neg feed, if_neg fun same => feed ((feeds c).mp same)]
      cases lines t <;> rfl

end MarkdownLinks.Text
