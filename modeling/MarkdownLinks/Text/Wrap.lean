import MarkdownLinks.Text.Basic

/-!
# Filling lines

Words are put on lines greedily: a word that fits behind the words of the line, with one space between,
is added to it, and any other word opens a new line. A word wider than the line has one of its own.
-/

namespace MarkdownLinks.Text

/-- The words of each line when lines may be `width` characters long. -/
def fillLines (width : Nat) : List Text → List (List Text)
  | [] => []
  | w :: ws => go [w] w.length ws
where
  go (line : List Text) (length : Nat) : List Text → List (List Text)
    | [] => [line.reverse]
    | w :: ws =>
      if length + 1 + w.length ≤ width then go (w :: line) (length + 1 + w.length) ws
      else line.reverse :: go [w] w.length ws

/-- The lines of `words` filled up to `width`, with single spaces between words. -/
def wrap (width : Nat) (words : List Text) : List Text := (fillLines width words).map (joinWith [' '])

end MarkdownLinks.Text
