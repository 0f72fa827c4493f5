import MarkdownLinks.Text.Whitespace

/-!
# HTML tags

Scanners for opening and closing tags. Each takes a text that starts where the tag does and gives back what
follows it. A tag that opens a block lies on one line; a tag inside a paragraph may run over several.
-/

namespace MarkdownLinks.Html

def isLetter (c : Char) : Bool := c.isAlpha

def isTagNameChar (c : Char) : Bool := c.isAlphanum || c = '-'

def isAttributeStart (c : Char) : Bool := c.isAlpha || c = ':' || c = '_'

def isAttributeChar (c : Char) : Bool := c.isAlphanum || c = '-' || c = '_' || c = '.' || c = ':'

def isBareValueChar (c : Char) : Bool :=
  !(isWhitespace c || c = '"' || c = '\'' || c = '\x60' || c = '=' || c = '<' || c = '>')

inductive Layout
  | oneLine
  | anyLines
  deriving DecidableEq

def Layout.isGap : Layout → Char → Bool
  | .oneLine => isBlankChar
  | .anyLines => isWhitespace

def Layout.isEndGap : Layout → Char → Bool
  | .oneLine => isBlankChar
  | .anyLines => (· = ' ')

def afterTagName? : Text → Option Text
  | c :: t => if isLetter c then some (t.dropWhile isTagNameChar) else none
  | [] => none

/-- What follows a quoted value whose opening quote has been read. -/
def afterQuoted? (layout : Layout) (quote : Char) : Text → Option Text
  | [] => none
  | c :: t =>
    if c = quote then some t
    else if c = '\n' && layout = .oneLine then none
    else afterQuoted? layout quote t

def afterValue? (layout : Layout) : Text → Option Text
  | '\'' :: t => afterQuoted? layout '\'' t
  | '"' :: t => afterQuoted? layout '"' t
  | c :: t => if isBareValueChar c then some (t.dropWhile isBareValueChar) else none
  | [] => none

/-- What follows the equals sign and the value of an attribute, if there is a value. -/
def afterAssignment (layout : Layout) (t : Text) : Text :=
  let value? := match t.dropWhile layout.isGap with
    | '=' :: rest => afterValue? layout (rest.dropWhile layout.isGap)
    | _ => none
  value?.getD t

def afterAttribute? (layout : Layout) (t : Text) : Option Text :=
  let name := t.dropWhile layout.isGap
  match t, name with
  | first :: _, c :: rest =>
    if layout.isGap first && isAttributeStart c then
      some (afterAssignment layout (rest.dropWhile isAttributeChar))
    else none
  | _, _ => none

def afterAttributes (layout : Layout) : Nat → Text → Text
  | 0, t => t
  | fuel + 1, t => match afterAttribute? layout t with
    | some rest => afterAttributes layout fuel rest
    | none => t

def afterOpeningTag? (layout : Layout) : Text → Option Text
  | '<' :: t => do
    let t ← afterTagName? t
    match (afterAttributes layout t.length t).dropWhile layout.isEndGap with
    | '>' :: rest => some rest
    | '/' :: '>' :: rest => some rest
    | _ => none
  | _ => none

def afterClosingTag? (layout : Layout) : Text → Option Text
  | '<' :: '/' :: t => do
    match (← afterTagName? t).dropWhile layout.isEndGap with
    | '>' :: rest => some rest
    | _ => none
  | _ => none

def afterMark? (mark : Text) (t : Text) : Option Text :=
  (Text.find? mark t).map fun n => t.drop (n + mark.length)

/-- What follows a comment, a processing instruction, a declaration or a literal section. -/
def afterSpecial? (t : Text) : Option Text :=
  match t with
  | '<' :: '!' :: '-' :: '-' :: rest => match rest with
    | '>' :: after => some after
    | '-' :: '>' :: after => some after
    | _ => afterMark? ['-', '-', '>'] rest
  | '<' :: '?' :: rest => afterMark? ['?', '>'] rest
  | '<' :: '!' :: '[' :: 'C' :: 'D' :: 'A' :: 'T' :: 'A' :: '[' :: rest => afterMark? [']', ']', '>'] rest
  | '<' :: '!' :: rest =>
    let tail := rest.dropWhile Char.isUpper
    if tail.length < rest.length && tail.head? = some ' ' then afterMark? ['>'] tail.tail else none
  | _ => none

/-- What follows any piece of HTML that may stand inside a paragraph. -/
def afterInline? (t : Text) : Option Text :=
  afterOpeningTag? .anyLines t <|> afterClosingTag? .anyLines t <|> afterSpecial? t

/-- A letter as tag names are compared: case and the few non-ASCII characters with an ASCII counterpart in
another case do not matter. -/
def foldLetter (c : Char) : Char :=
  match c with
  | '\u017F' => 's'
  | '\u212A' => 'k'
  | '\u0131' | '\u0130' => 'i'
  | c => c.toLower

/-- What follows `name` (in lower case) at the start of a text, whatever the case there. -/
def afterName? : Text → Text → Option Text
  | [], t => some t
  | _ :: _, [] => none
  | n :: name, c :: t => if foldLetter c = n then afterName? name t else none

end MarkdownLinks.Html
