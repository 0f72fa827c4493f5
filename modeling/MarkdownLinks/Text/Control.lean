import MarkdownLinks.Text.Basic

/-!
# Control sequences

A terminal takes colours and the like from sequences of an escape character, a bracket, parameters and a letter.
What is printed to anything but a terminal goes out without them.
-/

namespace MarkdownLinks
namespace Text

def escapeChar : Char := Char.ofNat 27

def isParameter (c : Char) : Bool := c = ';' || c = '?' || c.isDigit

/-- The length of the control sequence that a text begins with; zero if it begins with none. -/
def controlLength : Text → Nat
  | e :: b :: t =>
    if e = escapeChar && b = '[' && (t.dropWhile isParameter).head?.any Char.isAlpha then
      (t.takeWhile isParameter).length + 3
    else 0
  | _ => 0

/-- A text without its control sequences. -/
def withoutControls (t : Text) : Text := go 0 t
where
  go : Nat → Text → Text
    | _, [] => []
    | left + 1, _ :: t => go left t
    | 0, c :: t => match controlLength (c :: t) with
      | 0 => c :: go 0 t
      | left + 1 => go left t

end Text
end MarkdownLinks
