import MarkdownLinks.Text.Basic

/-!
# Whitespace, words and the normal form

Whitespace is the Unicode class. The normal form of a text has each run of whitespace replaced by one
space and none at the ends, which is what link texts and labels are compared by. `words` splits at the
same characters.
-/

namespace MarkdownLinks

def whitespaceRanges : List (Nat × Nat) :=
  [(0x9, 0xD), (0x1C, 0x20), (0x85, 0x85), (0xA0, 0xA0), (0x1680, 0x1680), (0x2000, 0x200A), (0x2028, 0x2029),
   (0x202F, 0x202F), (0x205F, 0x205F), (0x3000, 0x3000)]

def isWhitespace (c : Char) : Bool := inRanges whitespaceRanges c.toNat

def isBlankChar (c : Char) : Bool := isWhitespace c && c ≠ '\n'

namespace Text

def isBlank (t : Text) : Bool := t.all isWhitespace

def stripLeft (t : Text) : Text := t.dropWhile isWhitespace

def stripRight (t : Text) : Text := t.dropWhileEnd isWhitespace

def strip (t : Text) : Text := t.stripLeft.stripRight

def collapse (t : Text) : Text := go false t
where
  go (inRun : Bool) : Text → Text
    | [] => []
    | c :: t =>
      if isWhitespace c then (if inRun then go true t else ' ' :: go true t) else c :: go false t

def normalize (t : Text) : Text := t.collapse.strip

def words (t : Text) : List Text := go [] t
where
  flush (word : Text) : List Text := if word.isEmpty then [] else [word.reverse]
  go (word : Text) : Text → List Text
    | [] => flush word
    | c :: t => if isWhitespace c then flush word ++ go [] t else go (c :: word) t

end Text
end MarkdownLinks
