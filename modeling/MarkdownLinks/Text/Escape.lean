import MarkdownLinks.Text.Punctuation

/-!
# Backslash escapes

A backslash before ASCII punctuation stands for that character. `unescape` takes such backslashes out, and the
searches below pass over the character that follows a backslash.
-/

namespace MarkdownLinks.Text

def unescape : Text → Text
  | [] => []
  | '\\' :: c :: t => if isAsciiPunctuation c then c :: unescape t else '\\' :: c :: unescape t
  | c :: t => c :: unescape t

/-- The offset of the first unescaped `target`, unless a character that `stop` accepts comes first. -/
def findUnescaped? (t : Text) (target : Char) (stop : Char → Bool) : Option Nat := go 0 false t
where
  go (i : Nat) (escaped : Bool) : Text → Option Nat
    | [] => none
    | c :: t =>
      if escaped then go (i + 1) false t
      else if c = target then some i
      else if stop c then none
      else go (i + 1) (c = '\\') t

def isPaired (t : Text) (opening closing : Char) : Bool := go 0 false t
where
  go (depth : Nat) (escaped : Bool) : Text → Bool
    | [] => depth == 0
    | c :: t =>
      if escaped then go depth false t
      else if c = '\\' then go depth true t
      else if c = opening then go (depth + 1) false t
      else if c = closing then (if depth = 0 then false else go (depth - 1) false t)
      else go depth false t

end MarkdownLinks.Text
