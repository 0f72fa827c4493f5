import MarkdownLinks.Block.Source
import MarkdownLinks.Inline.Link

/-!
# Reading inline elements

`parse` turns the text of a paragraph or heading into nodes. Links carry the position of their source.
-/

namespace MarkdownLinks.Inline

/-- What reading the text of a block needs to know: the targets that the document defines and where the lines
of its source start. -/
structure Context where
  targets : List (Text × Target)
  lineStarts : List Int

/-- All tokens of a text, those of links and emphasis first where two start together. -/
def tokens (targets : List (Text × Target)) (t : Text) : List Token :=
  sortTokens (linksAndEmphases targets t ++
    [autoLink?, code?, html?, lineBreak?, literal?].flatMap (scan · t))

def positionOf (lineStarts : List Int) (offsets : Array Nat) (start stop : Nat) : Option Position := do
  if stop ≤ start then none
  else Position.ofSpan? lineStarts (← offsets[start]?) ((← offsets[stop - 1]?) + 1)

def Element.toNode (position : Option Position) (children : List Node) : Element → Node
  | emphasis => .fresh .emphasis children
  | strong => .fresh .strong children
  | image target => .fresh (.image target) children
  | link form => .fresh (.link form position) children
  | autoLink dest text => .fresh (.autoLink dest) [.leaf (.text text)]
  | leaf l => .leaf l

/-- The text between two offsets as a node, if there is any. -/
def gap (t : Text) (start stop : Nat) : List Node :=
  if start < stop then [.leaf (.text (t.slice start stop))] else []

/-- The nodes of the text between two offsets, of which some have been made. -/
def fill (t : Text) (stop : Nat) : Nat → List (Token × Node) → List Node
  | start, [] => gap t start stop
  | start, (token, node) :: rest => gap t start token.start ++ node :: fill t stop token.stop rest

/-- The nodes of the text between two offsets, in which `tokens` have been found. `fuel` bounds how deep
tokens lie inside each other. -/
def nodes (lineStarts : List Int) (t : Text) (offsets : Array Nat) : Nat → List Token → Nat → Nat → List Node
  | 0, _, start, stop => gap t start stop
  | fuel + 1, tokens, start, stop =>
    fill t stop start <| (resolve tokens).map fun (token, inside) =>
      (token, token.element.toNode (positionOf lineStarts offsets token.start token.stop)
        (nodes lineStarts t offsets fuel inside token.innerStart token.innerStop))

def parse (context : Context) (text : Located) : List Node :=
  let t := text.map Prod.fst
  let offsets := (text.map Prod.snd).toArray
  let found := tokens context.targets t
  nodes context.lineStarts t offsets (found.length + 1) found 0 t.length

end MarkdownLinks.Inline
