import MarkdownLinks.Block.Start
import MarkdownLinks.Label

/-!
# Reading blocks

`readDocument` finds the block structure of a text. Text that holds inline elements is kept with its source
offsets, because references in it can only be resolved when all definitions are known.
-/

namespace MarkdownLinks

inductive Block
  | leaf (leaf : Leaf)
  | definition (label : Text) (target : Target)
  | paragraph (text : Located)
  | heading (underlined : Bool) (level : Nat) (text : Located)
  | quote (children : List Block)
  | list (style : ListStyle) (items : List Block)
  | item (children : List Block)

namespace Block

structure Placed where
  block : Block
  start : Cursor

def isBlankLine : Block → Bool
  | leaf .blankLine => true
  | _ => false

def children : Block → List Block
  | quote children => children
  | list _ items => items
  | item children => children
  | _ => []

def isNumbered (bullet : Text) : Bool := !bullet.dropLast.isEmpty && bullet.dropLast.all isDecimalDigit

/-- The first line of the next item of the list that is open, if there is one at the cursor. -/
def nextItem? (s : Source) : Option ItemLine :=
  match s.frames with
  | .list bullet ordered :: _ => do
    let view ← s.view
    if isThematicBreak view.rest || (itemMarker? view.rest).isNone then none
    else
      let line := s.line.expandTabs
      let item := itemLine line.stripRight ((Mark.matchAll s.marks line).getD 0)
      let fits := item.bullet.getLast? = bullet.getLast? &&
        if ordered then isNumbered item.bullet else item.bullet = bullet
      if fits then some item else none
  | _ => none

/-- Whether a list that starts here would end a paragraph: on a continuation line that lacks some marks
always, and otherwise if its first item is not empty and carries a bullet or the number one. -/
def listBreaks (lazy : Bool) (t : Text) : Bool :=
  (itemMarker? t).isSome &&
    let item := itemLine (t.splitFirstLine.1.stripRight) 0
    let starts := item.bullet.dropLast = ['1'] || ['*', '-', '+'].any (item.bullet = [·])
    lazy || (starts && !item.tail.isEmpty)

/-- Whether a block of HTML that starts here would end a paragraph. -/
def htmlBreaks (t : Text) : Bool :=
  match htmlStart? t with
  | none | some (.blankLine false) => false
  | some _ => true

/-- Whether a quote can be opened at the cursor, of which `view` is the place behind the marks. Its own
mark has to fit there too: where a tab behind those marks makes up more than three columns, the line is
indented code. -/
def opensQuote (s : Source) (view : Cursor) : Bool := isQuoteStart view.rest && (s.push .quote).view.isSome

/-- Whether the line at the cursor ends the paragraph above it. `lazy` tells that the line lacks the marks of
some containers of the paragraph, which have been closed in `s`. -/
def breaksParagraph (s : Source) (lazy : Bool) : Bool :=
  match s.view with
  | none => false
  | some view =>
    let t := view.rest
    s.isBlank || (fence? t).isSome || (heading? view).isSome || opensQuote s view ||
      (lazy && (nextItem? s).isSome) || listBreaks lazy t || htmlBreaks t ||
      (isThematicBreak t && (lazy || !isUnderline t.splitFirstLine.1))

/-- The line behind its marks with its offsets, unless it is empty. -/
def locatedLine? (s : Source) : Option Located := do
  let view ← s.view
  let line := view.rest.splitFirstLine.1
  if line.isEmpty then none else some (locate line view.offset)

/-- The line that continues a paragraph although it lacks the marks of its innermost containers. These stay
open. -/
def lazyLine? (s : Source) : Option (Located × Source) := go [] s.frames
where
  go (closed : List Frame) : List Frame → Option (Located × Source)
    | frame :: outer@(_ :: _) =>
      let t := { s with frames := outer }
      match locatedLine? t with
      | none => go (frame :: closed) outer
      | some line =>
        if breaksParagraph t true then none
        else
          let t := t.nextLine
          some (line, { t with frames := (frame :: closed).reverse ++ t.frames })
    | _ => none

/-- The lines of a paragraph below its first one, and the underline if it turns out to be a heading. -/
def readParagraphLines : Nat → Source → List Located × Option Text × Source
  | 0, s => ([], none, s)
  | fuel + 1, s =>
    if s.atEnd || breaksParagraph s false then ([], none, s)
    else match locatedLine? s with
      | some line =>
        if isUnderline (line.map Prod.fst) then ([], some (line.map Prod.fst), s.nextLine)
        else
          let (lines, underline, t) := readParagraphLines fuel s.nextLine
          (line :: lines, underline, t)
      | none => match lazyLine? s with
        | none => ([], none, s)
        | some (line, t) =>
          let (lines, underline, t) := readParagraphLines fuel t
          (line :: lines, underline, t)

/-- A paragraph, or the heading that it becomes by its underline. Indentation does not belong to the text. -/
def readParagraph (first : Located) (s : Source) : Block × Source :=
  let (lines, underline?, s) := readParagraphLines (s.cursor.rest.length + 1) s.nextLine
  let text := (first :: lines).flatMap (·.dropWhile fun x => isWhitespace x.1)
  match underline? with
  | none => (paragraph ((text.reverse.dropWhile fun x => x.1 = '\n').reverse), s)
  | some underline =>
    (heading true (if underline.strip.head? = some '=' then 1 else 2) (stripLocated text), s)

/-- A line of fenced code without the indentation of its fence. -/
def unindent (indent : Nat) (line : Text) : Text :=
  match Source.markLength? [.exactly (List.replicate indent ' ')] line with
  | some n => line.drop n
  | none => line.stripLeft

/-- The text up to the closing fence or the end of the container. -/
def readFenced (fence : Fence) : Nat → Source → Text × Source
  | 0, s => ([], s)
  | fuel + 1, s =>
    if s.atEnd then ([], s)
    else match s.viewLine? with
      | none => ([], s)
      | some line =>
        if closesFence fence.mark line then ([], s.nextLine)
        else
          let (text, t) := readFenced fence fuel s.nextLine
          (unindent fence.indent line ++ text, t)

def readHtml (stop : HtmlEnd) : Nat → Source → Text × Source
  | 0, s => ([], s)
  | fuel + 1, s =>
    if s.atEnd then ([], s)
    else match s.viewLine? with
      | none => ([], s)
      | some line =>
        if stop.within line then (line, s.nextLine)
        else if stop.before line then ([], s)
        else
          let (text, t) := readHtml stop fuel s.nextLine
          (line ++ text, t)

/-- The lines of indented code below its first one. Blank lines belong to it only if more code follows or the
text ends; `anchor` is the place behind the last line of code. -/
def readIndented (marks : List Mark) (anchor : Cursor) : Nat → Source → List Text × Source
  | 0, s => ([], s)
  | fuel + 1, s =>
    if s.atEnd then ([], s)
    else match s.viewLine?.filter Text.isBlank with
      | some line =>
        let (lines, t) := readIndented marks anchor fuel s.nextLine
        (((codeLine? marks line).getD ['\n']) :: lines, t)
      | none => match indentedLine? s with
        | some code =>
          let (lines, t) := readIndented marks s.nextLine.cursor fuel s.nextLine
          (code :: lines, t)
        | none => ([], { s with cursor := anchor })

def readIndentedCode (first : Text) (s : Source) : Block × Source :=
  let fuel := s.cursor.rest.length + 1
  let (lines, t) := readIndented (s.marks ++ [codeIndent]) s.nextLine.cursor fuel s.nextLine
  let code : Text := (first :: lines).flatten
  (leaf (.codeBlock (code.dropWhileEnd (· = '\n') ++ ['\n'])), t)

/-- Records the target of a definition unless an earlier one has the same identifier. -/
def define (s : Source) (label : Text) (target : Target) : List (Text × Target) :=
  let identifier := identifierOf label
  if s.targets.any (·.1 = identifier) then s.targets else s.targets ++ [(identifier, target)]

/-- A block that holds no further blocks, of those that come before paragraphs in precedence. -/
def readLeaf? (s : Source) (view : Cursor) : Option (Block × Source) :=
  let t := view.rest
  let fuel := s.cursor.rest.length + 1
  if let some stop := htmlStart? t then
    let (body, s) := readHtml stop fuel s
    some (leaf (.htmlBlock body), s)
  else if let some d := definition? t then
    let s := { s with cursor := view.advance d.length, targets := define s d.label d.target }
    some (definition d.label d.target, s)
  else (indentedLine? s).map fun code => readIndentedCode code s

mutual

/-- The blocks from the cursor on, as far as the innermost open container reaches. -/
def readBlocks : Nat → Source → List Placed × Source
  | 0, s => ([], s)
  | fuel + 1, s =>
    if s.atEnd then ([], s)
    else match readBlock fuel s with
      | none => ([], s)
      | some (block, t) =>
        let (blocks, u) := readBlocks fuel t
        (⟨block, s.cursor⟩ :: blocks, u)

/-- The block at the cursor, if the line has the marks of all open containers. -/
def readBlock : Nat → Source → Option (Block × Source)
  | 0, _ => none
  | fuel + 1, s => do
    let view ← s.view
    let t := view.rest
    let atTop := s.cursor.offset = 0 && s.frames.length = 1
    if let some (body, kind) := (if atTop then frontMatter? t else none) then
      some (leaf (.frontMatter body kind), { s with cursor := s.cursor.advance body.length })
    else if isThematicBreak t then some (leaf .thematicBreak, s.nextLine)
    else if let some fence := fence? t then
      let (text, u) := readFenced fence (s.cursor.rest.length + 1) s.nextLine
      some (leaf (.fencedCode fence.lang.unescape fence.extra text), u)
    else if let some (level, text) := heading? view then some (heading false level text, s.nextLine)
    else if let some marker := itemMarker? t then some (readList fuel marker s)
    else if opensQuote s view then
      let (blocks, u) := readBlocks fuel (s.push .quote)
      some (quote (blocks.map (·.block)), u.pop)
    else if s.isBlank then some (leaf .blankLine, Source.skipBlanks (s.cursor.rest.length + 1) s)
    else if let some result := readLeaf? s view then some result
    else some (readParagraph (locate t.splitFirstLine.1 view.offset) s)

def readList : Nat → ItemMarker → Source → Block × Source
  | 0, _, s => (list ⟨[], false, 1, true⟩ [], s)
  | fuel + 1, marker, s =>
    let ordered := marker.number.isSome
    let (items, tight, t) := readItems fuel false s.cursor (s.push (.list marker.bullet ordered))
    let tight := tight && !items.any fun item => item.children.any isBlankLine
    (list ⟨marker.bullet, ordered, ((marker.number.getD 1 : Nat) : Int), tight⟩ items, t.pop)

/-- The items of the open list, and whether no blank line stands before any of them. Blank lines behind
the last item are left to the containers around the list; `anchor` is the place behind that item. -/
def readItems : Nat → Bool → Cursor → Source → List Block × Bool × Source
  | 0, _, _, s => ([], true, s)
  | fuel + 1, blankBefore, anchor, s =>
    if s.atEnd then ([], true, s)
    else match nextItem? s with
      | some line =>
        let (block, t) := readItem fuel line s
        let (blocks, tight, u) := readItems fuel blankBefore t.cursor t
        (block :: blocks, !blankBefore && tight, u)
      | none =>
        if s.isBlank then readItems fuel true anchor (Source.skipBlanks (s.cursor.rest.length + 1) s)
        else ([], true, { s with cursor := anchor })

/-- The item at the cursor. An item whose first line is empty has content only if the next line does. A blank
line at its end is left to the list. -/
def readItem : Nat → ItemLine → Source → Block × Source
  | 0, _, s => (item [], s)
  | fuel + 1, line, s =>
    let spaces (n : Nat) : Text := List.replicate n ' '
    let width := line.bullet.length + line.indent + max line.gap 1
    let s := s.push (.item (spaces line.indent ++ line.bullet ++ spaces line.gap) (spaces width))
    let t := if s.isBlank then s.nextLine else s
    if s.isBlank && (t.viewLine?.all Text.isBlank) then (item [], t.pop)
    else
      let (blocks, u) := readBlocks fuel t
      match blocks.getLast? with
      | some last =>
        if last.block.isBlankLine then
          let rest := blocks.dropLast
          let u := if rest.isEmpty then u else { u with cursor := last.start }
          (item (rest.map (·.block)), u.pop)
        else (item (blocks.map (·.block)), u.pop)
      | none => (item [], u.pop)

end

/-- The blocks of a text and the targets that it defines. Line terminators must be line feeds. -/
def readDocument (t : Text) : List Block × List (Text × Target) :=
  let (blocks, s) := readBlocks (8 * (t.length + 8)) ⟨⟨t, 0⟩, [.document], []⟩
  (blocks.map (·.block), s.targets)

end Block
end MarkdownLinks
