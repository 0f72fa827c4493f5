import MarkdownLinks.Text.Escape

/-!
# Link titles

A title is written in double quotes, with quotes and backslashes escaped. The empty title counts as none.
-/

namespace MarkdownLinks.Title

def quote (title : Text) : Text :=
  '"' :: ((title.replaceChar '\\' ['\\', '\\']).replaceChar '"' ['\\', '"'] ++ ['"'])

/-- What follows a destination: a space and the quoted title, or nothing without a title. -/
def write : Option Text → Text
  | none | some [] => []
  | some title => ' ' :: quote title

/-- The title that a written form, with its delimiters, stands for. -/
def read : Option Text → Option Text
  | none | some [] => none
  | some written => some (Text.unescape written.tail.dropLast)

end MarkdownLinks.Title
