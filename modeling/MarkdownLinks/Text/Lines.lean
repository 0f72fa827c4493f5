import MarkdownLinks.Text.Basic

/-!
# Lines

Line terminators are made uniform before parsing. Offsets of line starts are taken from the uniform text;
`splitLines` breaks at every terminator that Unicode knows.
-/

namespace MarkdownLinks.Text

/-- Carriage returns, alone or before a line feed, and form feeds become line feeds. -/
def normalizeLineEndings : Text → Text
  | [] => []
  | '\r' :: '\n' :: t => '\n' :: normalizeLineEndings t
  | c :: t => (if c = '\r' || c = '\x0c' then '\n' else c) :: normalizeLineEndings t

/-- Carriage returns, alone or before a line feed, become line feeds, as when a text file is read. -/
def readNewlines : Text → Text
  | [] => []
  | '\r' :: '\n' :: t => '\n' :: readNewlines t
  | c :: t => (if c = '\r' then '\n' else c) :: readNewlines t

/-- The offsets at which lines start: zero and one past every line feed. -/
def lineStarts (t : Text) : List Nat := 0 :: go 1 t
where
  go (next : Nat) : Text → List Nat
    | [] => []
    | c :: t => if c = '\n' then next :: go (next + 1) t else go (next + 1) t

/-- The characters that end a line when a text is split into lines. -/
def isLineTerminator (c : Char) : Bool :=
  let n := c.toNat
  (0xA ≤ n && n ≤ 0xD) || (0x1C ≤ n && n ≤ 0x1E) || n = 0x85 || n = 0x2028 || n = 0x2029

/-- The lines of a text without their terminators; a terminator at the very end opens no further line. -/
def splitLines (t : Text) : List Text := go [] t
where
  go (line : Text) : Text → List Text
    | [] => if line.isEmpty then [] else [line.reverse]
    | '\r' :: '\n' :: t => line.reverse :: go [] t
    | c :: t => if isLineTerminator c then line.reverse :: go [] t else go (c :: line) t

/-- The first line with its line feed, if it has one, and the rest. -/
def splitFirstLine : Text → Text × Text
  | [] => ([], [])
  | c :: t => if c = '\n' then (['\n'], t) else
    let (line, rest) := splitFirstLine t
    (c :: line, rest)

end MarkdownLinks.Text
