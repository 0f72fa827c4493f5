import MarkdownLinks.Title
import MarkdownLinks.Proofs.Text.Escape

/-!
Titles are read back as they were written. Both quotes and backslashes are escaped, so nothing in a title can be taken for
the quote that closes it.
-/

namespace MarkdownLinks.Title

/-- The characters that are escaped in titles. -/
def isEscaped (c : Char) : Bool := c = '\\' || c = '"'

theorem isAsciiPunctuation_of_isEscaped (c : Char) (escaped : isEscaped c) : isAsciiPunctuation c := by
  rcases (Bool.or_eq_true _ _).mp escaped with backslash | quote
  · rw [of_decide_eq_true backslash]; rfl
  · rw [of_decide_eq_true quote]; rfl

theorem quote_eq_escape (title : Text) : quote title = '"' :: (title.escape isEscaped ++ ['"']) := by
  rw [quote, Text.replaceChar_eq_escape (by decide) (by decide)]
  rfl

theorem write_filled {title : Text} (filled : title ≠ []) : write (some title) = ' ' :: quote title := by
  cases title with
  | nil => exact absurd rfl filled
  | cons c title => rfl

theorem read_quoted (body : Text) : read (some ('"' :: (body ++ ['"']))) = some body.unescape := by
  change some (Text.unescape (body ++ ['"']).dropLast) = some body.unescape
  rw [List.dropLast_concat]

/-- A title that is not empty is read back as it was written. Between the quotes of its written form, every quote has an odd
number of backslashes in front of it. At the end their number is even, so the search for the closing quote ends there,
whatever follows. -/
theorem read_write {title : Text} (filled : title ≠ []) :
    ∃ body : Text, write (some title) = ' ' :: '"' :: (body ++ ['"']) ∧
      read (some ('"' :: (body ++ ['"']))) = some title ∧
      (∀ before after : Text, body = before ++ '"' :: after → Odd before.endBackslashes) ∧
      Even body.endBackslashes ∧
      ∀ rest, Text.findUnescaped? (body ++ '"' :: rest) '"' (fun _ => false) = some body.length := by
  have covers : isEscaped '\\' := rfl
  have asked : isEscaped '"' := rfl
  have other : '"' ≠ '\\' := by decide
  refine ⟨title.escape isEscaped, ?_, ?_, fun before after cut => ?_, ?_, fun rest => ?_⟩
  · rw [write_filled filled, quote_eq_escape]
  · rw [read_quoted, Text.unescape_escape isAsciiPunctuation_of_isEscaped covers]
  · exact Text.odd_endBackslashes covers asked other (s := []) Even.zero cut
  · exact Text.even_endBackslashes covers asked other title
  · exact Text.findUnescaped?_escape covers asked other title rest

/-- A title with backslashes in front of a quote, a backslash, a letter, other punctuation and the end. -/
def backslashes : Text := "\\\"\\\\a\\b\\*\\".toList

theorem backslashes_read_back : backslashes ≠ [] ∧
    ∃ body : Text, write (some backslashes) = ' ' :: '"' :: (body ++ ['"']) ∧
      read (some ('"' :: (body ++ ['"']))) = some backslashes ∧
      (∀ before after : Text, body = before ++ '"' :: after → Odd before.endBackslashes) ∧
      Even body.endBackslashes ∧
      ∀ rest, Text.findUnescaped? (body ++ '"' :: rest) '"' (fun _ => false) = some body.length := by
  have filled : backslashes ≠ [] := by decide
  exact ⟨filled, read_write filled⟩

end MarkdownLinks.Title
