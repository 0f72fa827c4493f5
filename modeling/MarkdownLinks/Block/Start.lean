import MarkdownLinks.Block.Html
import MarkdownLinks.Target
import MarkdownLinks.Text.Digit

/-!
# How blocks start

One recogniser for each kind of block. Each looks at the text behind the marks of the open containers; those
that have to look at indentation in columns take the whole line.
-/

namespace MarkdownLinks.Block

/-- The line at the start of a text, without its line feed. -/
def lineBody (t : Text) : Text := t.takeWhile (· ≠ '\n')

/-- At least three of one of `-`, `_` and `*`, with blanks between them, alone on a line. -/
def isThematicBreak (t : Text) : Bool :=
  match (afterIndent? t).map lineBody with
  | some (c :: line) =>
    let marks := (c :: line).filter (!isWhitespace ·)
    (c = '-' || c = '_' || c = '*') && marks.all (· = c) && 3 ≤ marks.length
  | _ => false

/-- A text cut at its first run of spaces and tabs: what precedes it, its length, and what follows. -/
def cutAtGap (t : Text) : Text × Nat × Text :=
  let isGap (c : Char) : Bool := c = ' ' || c = '\t'
  let rest := t.dropWhile (!isGap ·)
  (t.takeWhile (!isGap ·), (rest.takeWhile isGap).length, rest.dropWhile isGap)

structure Fence where
  indent : Nat
  mark : Text
  lang : Text
  extra : Text

/-- The fence that opens here: three or more backticks or tildes. What follows backticks holds none. -/
def fence? (t : Text) : Option Fence := do
  let start ← afterIndent? t
  let c ← start.head?
  let mark := start.takeWhile (· = c)
  if (c ≠ '\x60' && c ≠ '~') || mark.length < 3 then none
  else
    let info := (lineBody (start.drop mark.length)).dropWhile isBlankChar
    if c = '\x60' && info.any (· = '\x60') then none
    else
      let (lang, _, extra) := cutAtGap info
      some ⟨t.length - start.length, mark, lang, extra⟩

/-- Whether a line closes fenced code that `mark` opened: a run at least as long, with nothing behind it. -/
def closesFence (mark line : Text) : Bool :=
  match afterIndent? line with
  | some (c :: t) =>
    let run := (c :: t).takeWhile (· = c)
    (c = '\x60' || c = '~') && atLineEnd (((c :: t).drop run.length).dropWhile isBlankChar) &&
      mark.all (· = c) && mark.length ≤ run.length
  | _ => false

/-- Whether the rest of a heading is its closing sequence: blanks, or a run of `#` after a blank with nothing
but blanks behind it. -/
def closesHeading (afterBlank : Bool) (t : Text) : Bool :=
  t.all isWhitespace || (afterBlank && (t.dropWhile (· = '#')).all isWhitespace)

def headingText (t : Located) : Located := go false t
where
  go (afterBlank : Bool) : Located → Located
    | [] => []
    | x :: xs =>
      if closesHeading afterBlank ((x :: xs).map Prod.fst) then [] else x :: go (isWhitespace x.1) xs

def stripLocated (t : Located) : Located :=
  ((t.dropWhile fun x => isWhitespace x.1).reverse.dropWhile fun x => isWhitespace x.1).reverse

/-- The level and the text of the heading that starts here. -/
def heading? (view : Cursor) : Option (Nat × Located) := do
  let t ← afterIndent? view.rest
  let level := (t.takeWhile (· = '#')).length
  let line := lineBody (t.drop level)
  if level = 0 || level > 6 || !(line.head?.all isWhitespace) then none
  else
    let offset := view.offset + (view.rest.length - t.length) + level
    some (level, stripLocated (headingText (locate line offset)))

def isQuoteStart (t : Text) : Bool := (afterIndent? t).any (·.startsWith ['>'])

/-- The marker of a list item: a bullet, or a number with a delimiter. -/
structure ItemMarker where
  bullet : Text
  number : Option Nat

def itemMarker? (t : Text) : Option ItemMarker := do
  let t ← afterIndent? t
  let digits := t.takeWhile isDecimalDigit
  let marker ← match digits, t.drop digits.length with
    | [], c :: _ => if c = '*' || c = '-' || c = '+' then some ⟨[c], none⟩ else none
    | _, c :: _ =>
      if digits.length ≤ 9 && (c = '.' || c = ')') then some ⟨digits ++ [c], some (digitsValue digits)⟩
      else none
    | _, [] => none
  match t.drop marker.bullet.length with
  | c :: _ => if c = ' ' || c = '\t' || c = '\n' then some marker else none
  | [] => none

/-- The parts of an item's first line: its indentation, its bullet, the blanks behind that and the text. -/
structure ItemLine where
  indent : Nat
  bullet : Text
  gap : Nat
  tail : Text

/-- Takes the first line of an item apart, from the column `start` on. More than four blanks behind the bullet
count as one: the others belong to indented code. -/
def itemLine (line : Text) (start : Nat) : ItemLine :=
  let stripped := Text.stripLeft (Text.expandTabs (line.drop start))
  let (bullet, gap, tail) := cutAtGap stripped
  ⟨line.length - start - stripped.length, bullet, if gap > 4 then 1 else gap, tail⟩

def isUnderline (line : Text) : Bool :=
  match afterIndent? line with
  | some (c :: t) =>
    (c = '=' || c = '-') && atLineEnd (((c :: t).dropWhile (· = c)).dropWhile isBlankChar)
  | _ => false

/-- A line of indented code without the columns that its marks take. -/
def codeLine? (marks : List Mark) (line : Text) : Option Text := do
  let width ← Mark.matchAll marks line.expandTabs
  let (rest, beyond) ← line.cutAt width
  let code := List.replicate beyond ' ' ++ rest
  if code.isEmpty then none else some code

/-- The four columns that indented code asks for behind the marks of its containers. -/
def codeIndent : Mark := .exactly [' ', ' ', ' ', ' ']

/-- The line of indented code at the cursor. Directly inside a quote the blank behind the mark is not code. -/
def indentedLine? (s : Source) : Option Text :=
  let marks := match s.frames with
    | .quote :: outer => { s with frames := outer }.marks ++ [.quote true]
    | _ => s.marks
  codeLine? (marks ++ [codeIndent]) s.line

/-- A definition as read, and how much of the text it takes. -/
structure DefinitionSpan where
  label : Text
  target : Target
  length : Nat

/-- The definition that starts here. Nothing but blanks may follow it on its last line; a title that
starts on a line of its own is given up where something does. -/
def definition? (t : Text) : Option DefinitionSpan := do
  let start ← afterIndent? t
  let n ← labelLength? start
  let rest := start.drop n
  if rest.head? ≠ some ':' then none
  else
    let gap := separatorLength rest.tail
    let body : Text := rest.tail.drop gap
    let span ← scanTarget false body
    let lineRest (stop : Nat) : Nat :=
      ((Text.findUnescaped? (body.drop stop) '\n' fun _ => false).map (· + 1)).getD (body.length - stop)
    let before := (t.length - start.length) + n + 1 + gap
    let label := start.slice 1 (n - 1)
    let stop := span.stop + lineRest span.stop
    if Text.isBlank (body.slice span.stop stop) then some ⟨label, span.target, before + stop⟩
    else match span.title with
      | some title =>
        if (body.slice span.destStop title.start).any (· = '\n') then
          some ⟨label, { span with title := none }.target, before + span.destStop + lineRest span.destStop⟩
        else none
      | none => none

def linesOf : Nat → Text → List Text
  | 0, _ => []
  | fuel + 1, t =>
    if t.isEmpty then [] else
      let (line, rest) := t.splitFirstLine
      line :: linesOf fuel rest

def isFrontMatterFence (fence line : Text) : Bool :=
  line.startsWith fence && atLineEnd ((line.drop fence.length).dropWhile isBlankChar)

/-- The front matter that a text starts with. A closing fence right below the opening one counts only if no
other follows. -/
def frontMatter? (t : Text) : Option (Text × FrontMatterKind) :=
  let closed (fence : Text) : Option Text :=
    match linesOf (t.length + 1) t with
    | first :: second :: lines =>
      let later := lines.takeWhile fun line => !isFrontMatterFence fence line
      if !isFrontMatterFence fence first then none
      else if later.length < lines.length then
        some (first ++ second ++ (lines.take (later.length + 1)).flatten)
      else if isFrontMatterFence fence second then some (first ++ second)
      else none
    | _ => none
  ((closed ['-', '-', '-']).map (·, .yaml)) <|> ((closed ['+', '+', '+']).map (·, .toml))

end MarkdownLinks.Block
