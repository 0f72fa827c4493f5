import MarkdownLinks.Destination
import MarkdownLinks.Node.Basic
import MarkdownLinks.Title

/-!
# Writing trees as Markdown

Each line of a nested block starts with the markers and indentation of its containers. The first line of
a block gets `first`, all further lines get `rest`; rendering a block hands back the `first` of the block
after it.
-/

namespace MarkdownLinks

inductive RenderError
  | emptyCodeSpan
  | emptyCodeBlock
  deriving DecidableEq, Repr

/-- A rendered text and the line start for what follows it. -/
structure Rendered where
  text : Text
  first : Text
  deriving DecidableEq, Repr

/-- A target as it is written behind a link text or a definition label. -/
def Target.render (t : Target) : Text := Destination.write t.dest ++ Title.write t.title

/-- What a branch writes around its children, apart from blocks that also set line starts. -/
def Container.delimiters : Container → Text × Text
  | .emphasis => (['*'], ['*'])
  | .strong => (['*', '*'], ['*', '*'])
  | .image target => (['!', '['], ']' :: '(' :: (target.render ++ [')']))
  | .link (.inline target) _ => (['['], ']' :: '(' :: (target.render ++ [')']))
  | .link (.reference label .full) _ => (['['], ']' :: '[' :: (label ++ [']']))
  | .link (.reference _ .collapsed) _ => (['['], [']', '[', ']'])
  | .link (.reference _ .shortcut) _ => (['['], [']'])
  | _ => ([], [])

/-- The marker of an item, counted from the start of the list when it is ordered. -/
def ListStyle.marker (style : ListStyle) (index : Nat) : Text :=
  if style.ordered then Text.ofInt (style.start + index) ++ ['.', ' '] else style.bullet ++ [' ']

def ListStyle.indent (style : ListStyle) (index : Nat) : Text :=
  if style.ordered then List.replicate (style.marker index).length ' ' else [' ', ' ']

/-- A code span, with doubled backticks when its text starts or ends with one. -/
def renderCodeSpan (text : Text) : Except RenderError Text :=
  match text.head?, text.getLast? with
  | some a, some b =>
    if a = '\x60' || b = '\x60' then .ok (['\x60', '\x60', ' '] ++ text ++ [' ', '\x60', '\x60'])
    else .ok ('\x60' :: (text ++ ['\x60']))
  | _, _ => .error .emptyCodeSpan

def unlines (lines : List Text) : Text := lines.flatMap (· ++ ['\n'])

def Leaf.render (rest first : Text) : Leaf → Except RenderError Rendered
  | text t => .ok ⟨t.replaceChar '\n' ('\n' :: rest), first⟩
  | unescaped t => .ok ⟨t, first⟩
  | literal t => .ok ⟨'\\' :: t, first⟩
  | code t => do .ok ⟨← renderCodeSpan t, first⟩
  | html t => .ok ⟨t, first⟩
  | lineBreak soft => .ok ⟨(if soft then ['\n'] else ['\\', '\n']) ++ rest, first⟩
  | blankLine => .ok ⟨['\n'], rest⟩
  | thematicBreak => .ok ⟨first ++ ['*', ' ', '*', ' ', '*', '\n'], rest⟩
  | codeBlock t =>
    let indent := List.replicate 4 ' '
    match t.splitLines with
    | [] => .error .emptyCodeBlock
    | line :: lines => .ok ⟨unlines ((first ++ indent ++ line) :: lines.map (rest ++ indent ++ ·)), rest⟩
  | fencedCode lang extra t =>
    let fence := ['\x60', '\x60', '\x60']
    let info := lang ++ (if extra.isEmpty then [] else ' ' :: extra)
    .ok ⟨unlines ((first ++ fence ++ info) :: t.splitLines.map (rest ++ ·) ++ [rest ++ fence]), rest⟩
  | htmlBlock body => .ok ⟨first ++ body ++ ['\n'], rest⟩
  | frontMatter body _ => .ok ⟨if body.endsWith ['\n'] then body else body ++ ['\n'], first⟩

def renderDefinition (first label : Text) (target : Target) : Text :=
  first ++ ['['] ++ label ++ [']', ':', ' '] ++ target.render ++ ['\n']

namespace Node

mutual

/-- A node as Markdown, its first line starting with `first` and its further ones with `rest`. -/
def renderAt (rest first : Text) : Node → Except RenderError Rendered
  | leaf l => l.render rest first
  | definition _ label target => .ok ⟨renderDefinition first label target, rest⟩
  | branch _ .paragraph children => do
    let r ← renderAll rest first children
    .ok ⟨r.first ++ r.text ++ ['\n'], rest⟩
  | branch _ (.heading _ level) children => do
    let r ← renderAll rest first children
    .ok ⟨first ++ List.replicate level.toNat '#' ++ [' '] ++ r.text ++ ['\n'], rest⟩
  | branch _ .quote children => do
    let r ← renderAll (rest ++ ['>', ' ']) (first ++ ['>', ' ']) children
    .ok ⟨r.text.dropWhileEnd (· = '\n') ++ ['\n'], rest⟩
  | branch _ (.list style) children => do
    let items ← renderItems rest first style 0 children
    .ok ⟨Text.joinWith (if style.tight then [] else ['\n']) items, rest⟩
  | branch _ (.autoLink dest) _ => .ok ⟨'<' :: (dest ++ ['>']), first⟩
  | branch _ container children => do
    let r ← renderAll rest first children
    .ok ⟨container.delimiters.1 ++ r.text ++ container.delimiters.2, r.first⟩

def renderAll (rest first : Text) : List Node → Except RenderError Rendered
  | [] => .ok ⟨[], first⟩
  | n :: ns => do
    let r ← renderAt rest first n
    let s ← renderAll rest r.first ns
    .ok ⟨r.text ++ s.text, s.first⟩

/-- The items of a list, each behind its marker, from the item at `index` on. -/
def renderItems (rest first : Text) (style : ListStyle) (index : Nat) :
    List Node → Except RenderError (List Text)
  | [] => .ok []
  | n :: ns => do
    let r ← renderAt (rest ++ style.indent index) (first ++ style.marker index) n
    let rs ← renderItems rest first style (index + 1) ns
    .ok (r.text :: rs)

end

def render (n : Node) : Except RenderError Text := do
  let r ← renderAt [] [] n
  .ok r.text

/-- The children of a node as Markdown, for instance the text of a link. -/
def renderInline (n : Node) : Except RenderError Text := do
  let r ← renderAll [] [] n.children
  .ok r.text

end Node
end MarkdownLinks
