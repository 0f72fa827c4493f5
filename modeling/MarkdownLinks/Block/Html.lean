import MarkdownLinks.Block.Source
import MarkdownLinks.Html

/-!
# Where HTML blocks start and end

A block of HTML starts with one of a few openings and ends with the line that holds the matching mark, or
before the next blank line.
-/

namespace MarkdownLinks.Block

/-- What ends a block of HTML. Blocks that end at a blank line may be barred from breaking a paragraph. -/
inductive HtmlEnd
  | closingTag (name : Text)
  | mark (text : Text)
  | blankLine (breaksParagraph : Bool)

def rawElements : List String := ["script", "pre", "style", "textarea"]

def blockElements : List String :=
  ["address", "article", "aside", "base", "basefont", "blockquote", "body", "caption", "center", "col",
   "colgroup", "dd", "details", "dialog", "dir", "div", "dl", "dt", "fieldset", "figcaption", "figure", "footer",
   "form", "frame", "frameset", "h1", "h2", "h3", "h4", "h5", "h6", "head", "header", "hr", "html", "iframe",
   "legend", "li", "link", "main", "menu", "menuitem", "meta", "nav", "noframes", "ol", "optgroup", "option",
   "p", "param", "section", "source", "summary", "table", "tbody", "td", "tfoot", "th", "thead", "title", "tr",
   "track", "ul"]

def afterIndent? (t : Text) : Option Text :=
  let n := (t.takeWhile (· = ' ')).length
  if n ≤ 3 then some (t.drop n) else none

def atLineEnd (t : Text) : Bool := t.isEmpty || t.head? = some '\n'

def endsBlockName (t : Text) : Bool :=
  atLineEnd t || t.startsWith [' '] || t.startsWith ['>'] || t.startsWith ['/', '>']

def startsBlockElement (t : Text) : Bool :=
  match t with
  | '<' :: rest =>
    let name : Text := if Text.startsWith rest ['/'] then rest.tail else rest
    blockElements.any fun (e : String) => (Html.afterName? e.toList name).any endsBlockName
  | _ => false

def isTagLine (t : Text) : Bool :=
  (Html.afterOpeningTag? .oneLine t <|> Html.afterClosingTag? .oneLine t).any fun rest =>
    atLineEnd (rest.dropWhile isBlankChar)

/-- The end of the block of HTML that starts here, if one does. -/
def htmlStart? (t : Text) : Option HtmlEnd := do
  let t ← afterIndent? t
  let raw? := match t with
    | '<' :: name => rawElements.find? fun (e : String) =>
        (Html.afterName? e.toList name).any fun (rest : Text) =>
          rest.head?.any fun c => c = '>' || isWhitespace c
    | _ => none
  if let some name := raw? then some (.closingTag name.toList)
  else if t.startsWith ['<', '!', '-', '-'] then some (.mark ['-', '-', '>'])
  else if t.startsWith ['<', '?'] then some (.mark ['?', '>'])
  else if t.startsWith ['<', '!'] then some (.mark ['>'])
  else if startsBlockElement t then some (.blankLine true)
  else if isTagLine t then some (.blankLine false)
  else none

/-- Whether a closing tag of an element occurs in a line. -/
def hasClosingTag (name : Text) : Text → Bool
  | [] => false
  | c :: t =>
    (match c :: t with
      | '<' :: '/' :: rest => (Html.afterName? name rest).any (·.startsWith ['>'])
      | _ => false) || hasClosingTag name t

/-- Whether a line ends the block, and still belongs to it. -/
def HtmlEnd.within : HtmlEnd → Text → Bool
  | closingTag name, line => hasClosingTag name line
  | mark m, line => line.hasInfix m
  | blankLine _, _ => false

def HtmlEnd.before : HtmlEnd → Text → Bool
  | blankLine _, line => line.isBlank
  | _, _ => false

end MarkdownLinks.Block
