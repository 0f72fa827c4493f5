import MarkdownLinks.Destination
import MarkdownLinks.Proofs.Text.Escape

/-!
Which destinations are read back as they were written. Angle brackets are escaped and backslashes are not, so what
counts is which punctuation a destination has behind its backslashes.
-/

namespace MarkdownLinks.Destination

/-! ### Shortcodes -/

/-- A shortcode somewhere in a text: two braces and a mark, anything on the same line, a mark and two braces. -/
def HoldsShortcode (t : Text) : Prop :=
  ∃ opening body closing, (opening = '<' ∨ opening = '%') ∧ (closing = '%' ∨ closing = '>') ∧ '\n' ∉ body ∧
    ['{', '{', opening] ++ body ++ [closing, '}', '}'] <:+: t

theorem closesShortcode_iff (t : Text) : closesShortcode t ↔
    ∃ body closing, (closing = '%' ∨ closing = '>') ∧ '\n' ∉ body ∧ body ++ [closing, '}', '}'] <+: t := by
  induction t with
  | nil => simp [closesShortcode]
  | cons c t ih =>
    simp only [closesShortcode, Text.startsWith, Bool.or_eq_true, Bool.and_eq_true, decide_eq_true_eq, ih,
      List.isPrefixOf_iff_prefix]
    constructor
    · rintro (⟨mark, braces⟩ | ⟨line, body, closing, mark, within, ends⟩)
      · exact ⟨[], c, mark, List.not_mem_nil, List.cons_prefix_cons.mpr ⟨rfl, braces⟩⟩
      · refine ⟨c :: body, closing, mark, ?_, List.cons_prefix_cons.mpr ⟨rfl, ends⟩⟩
        simpa [within, eq_comm] using line
    · rintro ⟨body, closing, mark, within, ends⟩
      cases body with
      | nil =>
        obtain ⟨rfl, braces⟩ := List.cons_prefix_cons.mp ends
        exact Or.inl ⟨mark, braces⟩
      | cons d body =>
        obtain ⟨same, later⟩ := List.cons_prefix_cons.mp ends
        rw [same, List.mem_cons, not_or] at within
        exact Or.inr ⟨Ne.symm within.1, body, closing, mark, within.2, later⟩

theorem holdsShortcode_cons (c : Char) (t : Text) : HoldsShortcode (c :: t) ↔
    (∃ opening rest, c :: t = '{' :: '{' :: opening :: rest ∧ (opening = '<' ∨ opening = '%') ∧ closesShortcode rest) ∨
      HoldsShortcode t := by
  simp only [HoldsShortcode, closesShortcode_iff, List.infix_cons_iff]
  constructor
  · rintro ⟨opening, body, closing, mark, mark', within, starts | later⟩
    · obtain ⟨after, same⟩ := starts
      exact Or.inl ⟨opening, body ++ [closing, '}', '}'] ++ after, by simpa using same.symm, mark, body, closing, mark',
        within, List.prefix_append _ _⟩
    · exact Or.inr ⟨opening, body, closing, mark, mark', within, later⟩
  · rintro (⟨opening, rest, same, mark, body, closing, mark', within, after, rfl⟩ |
      ⟨opening, body, closing, mark, mark', within, later⟩)
    · exact ⟨opening, body, closing, mark, mark', within, Or.inl ⟨after, by simpa using same.symm⟩⟩
    · exact ⟨opening, body, closing, mark, mark', within, Or.inr later⟩

theorem hasShortcode_iff (t : Text) : hasShortcode t ↔ HoldsShortcode t := by
  induction t with
  | nil => simp [hasShortcode, HoldsShortcode]
  | cons c t ih =>
    rw [holdsShortcode_cons, ← ih, hasShortcode, Bool.or_eq_true]
    refine or_congr_left ?_
    split
    · rename_i opening rest same
      simp [same]
    · rename_i other
      simp only [Bool.false_eq_true, false_iff, not_exists]
      exact fun opening rest same => other opening rest same.1

/-! ### Reading what was written -/

theorem write_eq_escape (url : Text) : (url.replaceChar '<' ['\\', '<']).replaceChar '>' ['\\', '>'] =
    url.escape fun c => c = '<' || c = '>' := Text.replaceChar_eq_escape (by decide) (by decide) url

theorem read_brackets (t : Text) : read ('<' :: (t ++ ['>'])) = t.unescape := by
  have ends : Text.endsWith ('<' :: (t ++ ['>'])) ['>'] = true :=
    List.isSuffixOf_iff_suffix.mpr ⟨'<' :: t, rfl⟩
  simp [read, Text.startsWith, ends]

theorem not_bracket_of_bare {url : Text} (bare : needsBrackets url = false) {c : Char} (inside : c ∈ url) :
    c ≠ '<' ∧ c ≠ '>' := by
  simp only [needsBrackets, Bool.or_eq_false_iff, List.any_eq_false, Bool.or_eq_true, decide_eq_true_eq, not_or] at bare
  obtain ⟨⟨-, less⟩, greater⟩ := bare.1.2 c inside
  exact ⟨less, greater⟩

theorem read_bare {url : Text} (bare : needsBrackets url = false) : read url = url.unescape := by
  have first : url.startsWith ['<'] = false := by
    cases url with
    | nil => rfl
    | cons c url =>
      have plain := (not_bracket_of_bare bare List.mem_cons_self).1
      simp [Text.startsWith, List.isPrefixOf, Ne.symm plain]
  rw [read, first, Bool.false_and, if_neg Bool.false_ne_true]

/-- A destination without shortcodes is read back as it was written exactly if its backslashes stand in front of no ASCII
punctuation but angle brackets. -/
theorem read_write_iff {url : Text} (plain : ¬ HoldsShortcode url) : read (write url) = url ↔
    ∀ c, ['\\', c] <:+: url → isAsciiPunctuation c → c = '<' ∨ c = '>' := by
  rw [write, if_neg (mt (hasShortcode_iff url).mp plain)]
  cases bare : needsBrackets url with
  | true =>
    have marks : ∀ c : Char, (c = '<' || c = '>') → isAsciiPunctuation c := by
      intro c bracket
      rcases (Bool.or_eq_true _ _).mp bracket with less | greater
      · rw [of_decide_eq_true less]; rfl
      · rw [of_decide_eq_true greater]; rfl
    rw [if_pos rfl, read_brackets, write_eq_escape, Text.unescape_escape_iff marks (by decide), Text.EscapesOnly]
    simp only [Bool.or_eq_true, decide_eq_true_eq]
  | false =>
    -- Without brackets nothing is escaped, and there are none for a backslash to stand in front of.
    have same : url.escape (fun _ => false) = url := by simp [Text.escape]
    have only := Text.unescape_escape_iff (p := fun _ => false) (fun _ marked => absurd marked Bool.false_ne_true)
      Bool.false_ne_true url
    rw [same] at only
    rw [if_neg Bool.false_ne_true, read_bare bare, only, Text.EscapesOnly]
    refine forall_congr' fun c => forall_congr' fun inside => forall_congr' fun _ => ?_
    have other := not_bracket_of_bare bare (inside.subset (List.mem_cons_of_mem _ List.mem_cons_self))
    simp [other.1, other.2]

/-- A destination that needs brackets, with the start of a shortcode and with backslashes in front of a bracket, a letter
and the end. -/
def openParenthesis : Text := "\x7b\x7b%a\\<b (\\c\\".toList

theorem openParenthesis_read_back : ¬ HoldsShortcode openParenthesis ∧
    (read (write openParenthesis) = openParenthesis ↔
      ∀ c, ['\\', c] <:+: openParenthesis → isAsciiPunctuation c → c = '<' ∨ c = '>') := by
  have plain : ¬ HoldsShortcode openParenthesis := mt (hasShortcode_iff _).mpr (by decide)
  exact ⟨plain, read_write_iff plain⟩

end MarkdownLinks.Destination
