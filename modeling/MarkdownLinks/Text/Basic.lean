/-!
# Text

A text is a list of characters, so that offsets count code points. Code points that are no characters, the halves of
surrogate pairs, stand in no text: what is read from a file or from standard input is UTF-8, which has none. This module
holds the operations that need no character class beyond equality: joining, replacing, cutting and comparing.
-/

namespace MarkdownLinks

abbrev Text := List Char

def inRanges (ranges : List (Nat × Nat)) (n : Nat) : Bool :=
  ranges.any fun r => r.1 ≤ n && n ≤ r.2

namespace Text

abbrev ofString (s : String) : Text := s.toList

/-- The text between the offsets `start` and `stop`, empty when they cross. -/
def slice (t : Text) (start stop : Nat) : Text := (t.drop start).take (stop - start)

def joinWith (sep : Text) : List Text → Text
  | [] => []
  | [t] => t
  | t :: ts => t ++ sep ++ joinWith sep ts

def replaceChar (t : Text) (c : Char) (new : Text) : Text :=
  t.flatMap fun d => if d = c then new else [d]

def dropWhileEnd (p : Char → Bool) (t : Text) : Text := (t.reverse.dropWhile p).reverse

def startsWith (t p : Text) : Bool := p.isPrefixOf t

def endsWith (t p : Text) : Bool := p.isSuffixOf t

def find? (p : Text) : Text → Option Nat
  | [] => if p.isEmpty then some 0 else none
  | c :: t => if p.isPrefixOf (c :: t) then some 0 else (find? p t).map (· + 1)

def hasInfix (t p : Text) : Bool := (find? p t).isSome

def ofNat (n : Nat) : Text := Nat.toDigits 10 n

/-- The decimal form of an integer, with a minus sign when it is negative. -/
def ofInt : Int → Text
  | .ofNat n => ofNat n
  | .negSucc n => '-' :: ofNat (n + 1)

def le : Text → Text → Bool
  | [], _ => true
  | _ :: _, [] => false
  | a :: s, b :: t => if a = b then le s t else a.toNat < b.toNat

end Text
end MarkdownLinks
