import MarkdownLinks.Text.Escape
import MarkdownLinks.Text.Whitespace

/-!
# Link destinations

A destination is written bare where that reads back, and in angle brackets otherwise. Template shortcodes such
as `{{< ref "page" >}}` are written as they are.
-/

namespace MarkdownLinks.Destination

def closesShortcode : Text → Bool
  | [] => false
  | c :: t => ((c = '%' || c = '>') && Text.startsWith t ['}', '}']) || (c ≠ '\n' && closesShortcode t)

def hasShortcode : Text → Bool
  | [] => false
  | c :: t =>
    (match c :: t with
      | '{' :: '{' :: d :: rest => (d = '<' || d = '%') && closesShortcode rest
      | _ => false) || hasShortcode t

def needsBrackets (url : Text) : Bool :=
  url.isEmpty || url.any (fun c => isWhitespace c || c = '<' || c = '>') || !url.isPaired '(' ')'

def write (url : Text) : Text :=
  if hasShortcode url then url
  else if needsBrackets url then
    '<' :: ((url.replaceChar '<' ['\\', '<']).replaceChar '>' ['\\', '>'] ++ ['>'])
  else url

/-- The destination that a written form stands for: without angle brackets and backslash escapes. -/
def read (written : Text) : Text :=
  Text.unescape <|
    if written.startsWith ['<'] && written.endsWith ['>'] then written.tail.dropLast else written

end MarkdownLinks.Destination
