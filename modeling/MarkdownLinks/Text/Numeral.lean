import MarkdownLinks.Text.Digit
import MarkdownLinks.Text.Whitespace

/-!
# Numerals

Integers as users write them: an optional sign and digits, with single underscores between digits. Whitespace
around the numeral is ignored.
-/

namespace MarkdownLinks.Numeral

/-- The whitespace that may surround a numeral: all but the information separators. -/
def isPadding (c : Char) : Bool := isWhitespace c && !(0x1C ≤ c.toNat && c.toNat ≤ 0x1F)

def trim (t : Text) : Text := Text.dropWhileEnd isPadding (t.dropWhile isPadding)

/-- Whether a run of digits and underscores is a numeral: underscores stand between digits only, and
singly. -/
def isDigitRun (run : Text) : Bool :=
  !run.isEmpty && run.head? ≠ some '_' && run.getLast? ≠ some '_' && !run.hasInfix ['_', '_']

/-- The values of the digits at the start of a text, and what follows them. -/
def digits? (digit : Char → Option Nat) (t : Text) : Option (List Nat × Text) :=
  let inRun (c : Char) : Bool := (digit c).isSome || c = '_'
  let run := t.takeWhile inRun
  if isDigitRun run then some (run.filterMap digit, t.dropWhile inRun) else none

def value (ds : List Nat) : Nat := ds.foldl (fun n d => 10 * n + d) 0

def sign : Text → Bool × Text
  | '-' :: t => (true, t)
  | '+' :: t => (false, t)
  | t => (false, t)

def signed (negative : Bool) (n : Nat) : Int := if negative then -(n : Int) else n

/-- Whether a text is a point with zeros behind it, or empty. -/
def isZeroFraction : Text → Bool
  | [] => true
  | '.' :: zeros => !zeros.isEmpty && zeros.all (· = '0')
  | _ => false

def asciiDigit? (c : Char) : Option Nat := if c.isDigit then some (c.toNat - '0'.toNat) else none

/-- Reads an integer in ASCII digits. A fraction of zeros is allowed. The rule for settings has no limit to the number of
digits, unlike that for arguments. -/
def readSetting? (t : Text) : Option Int := do
  let (negative, t) := sign (trim t)
  let (ds, rest) ← digits? asciiDigit? t
  if isZeroFraction rest then some (signed negative (value ds)) else none

def maxDigits : Nat := 4300

/-- Reads an integer in decimal digits of any script, at most `maxDigits` of them. -/
def readArgument? (t : Text) : Option Int := do
  let (negative, t) := sign (trim t)
  let (ds, rest) ← digits? digitValue? t
  if rest.isEmpty && ds.length ≤ maxDigits then some (signed negative (value ds)) else none

end MarkdownLinks.Numeral
