import MarkdownLinks.Block.Parse
import MarkdownLinks.Inline.Parse
import MarkdownLinks.Node.Render
import MarkdownLinks.Node.Walk

/-!
# Documents

`parse` reads a Markdown text into a document tree whose nodes are numbered from zero on.
-/

namespace MarkdownLinks

namespace Block

mutual

/-- The node of a block, its text read in the light of all definitions. -/
def toNode (context : Inline.Context) : Block → Node
  | leaf l => .leaf l
  | definition label target => .definition ⟨0, 0⟩ label target
  | paragraph text => .fresh .paragraph (Inline.parse context text)
  | heading underlined level text => .fresh (.heading underlined level) (Inline.parse context text)
  | quote children => .fresh .quote (toNodes context children)
  | list style items => .fresh (.list style) (toNodes context items)
  | item children => .fresh .listItem (toNodes context children)

def toNodes (context : Inline.Context) : List Block → List Node
  | [] => []
  | b :: bs => toNode context b :: toNodes context bs

end

end Block

namespace Document

/-- The text that is read: line terminators are line feeds, and the null character is replaced. -/
def sourceText (t : Text) : Text := t.normalizeLineEndings.map fun c => if c = '\x00' then '\uFFFD' else c

/-- The tree of a text, with its nodes numbered from `next` on. -/
def parseFrom (next : Nat) (t : Text) : Node × Nat :=
  let (blocks, targets) := Block.readDocument (sourceText t)
  let lineStarts := t.normalizeLineEndings.lineStarts.map Int.ofNat
  Node.number next (.fresh .document (Block.toNodes ⟨targets, lineStarts⟩ blocks))

def parse (t : Text) : Node := (parseFrom 0 t).1

end Document
end MarkdownLinks
