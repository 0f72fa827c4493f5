import MarkdownLinks.Link.Conflict
import MarkdownLinks.Link.Forest
import MarkdownLinks.Text.Wrap

/-!
# Reflowing link texts

Before links are rewritten, the texts of inline links that would overflow a column budget as references
are broken into lines. The column of a link is estimated from the source positions: the gaps between the
links of a source line stay as they are, and each link counts with its new length.
-/

namespace MarkdownLinks

def minReflowWidth : Int := 10

/-- The text of a node that holds words only: raw text, or the space of a soft break. -/
def plainText? : Node → Option Text
  | .leaf (.text t) | .leaf (.unescaped t) => some t
  | .leaf (.lineBreak true) => some [' ']
  | _ => none

/-- The lines of a link text within `width` columns, if it is plain and needs more than one. -/
def wrappedLines? (children : List Node) (width : Int) : Option (List Text) := do
  if width < minReflowWidth then none
  let texts ← children.mapM plainText?
  let lines := Text.wrap width.toNat (Text.words texts.flatten)
  if lines.length < 2 then none else some lines

/-- Puts a record in front of those whose links start further right. -/
def insertByColumn (r : LinkRecord × Position) : List (LinkRecord × Position) → List (LinkRecord × Position)
  | [] => [r]
  | s :: ss => if r.2.start.column ≤ s.2.start.column then r :: s :: ss else s :: insertByColumn r ss

/-- The records of links that start on one source line, in order of their columns. -/
def recordsOnLine (records : List (LinkRecord × Position)) (line : Int) : List (LinkRecord × Position) :=
  (records.filter (·.2.start.line = line)).foldr insertByColumn []

/-- The links with positions, grouped by source line in order of the lines' first links. -/
def recordsByLine (index : Index) : List (List (LinkRecord × Position)) :=
  let records := index.links.filterMap fun r => r.node.position.map (r, ·)
  ((records.map (·.2.start.line)).foldl (fun ls l => if ls.contains l then ls else ls ++ [l]) []).map
    (recordsOnLine records)

/-- The trees, the number of wrapped links, the estimated column and the source column behind the last
link. -/
structure Reflowing where
  forest : Forest
  wrapped : Nat
  column : Int
  lastEnd : Int

def lastLine (t : Text) : Text := (t.reverse.takeWhile (· ≠ '\n')).reverse

/-- Wraps the next link of a line if it is inline, has a definition to come, and would overflow. -/
def Reflowing.step (report : Report) (width : Int) (s : Reflowing) (r : LinkRecord × Position) :
    Except RenderError Reflowing := do
  let (record, position) := r
  if record.node.form.isReference || (report.resolvedUrl record.id).isNone then .ok s
  else
    let children (f : Forest) : Node := .fresh .paragraph (f.childrenOf record.node.tag)
    let column := s.column + (position.start.column - s.lastEnd)
    let identity ← (children s.forest).identity
    let lines? := if column + identity.length + 2 > width then
      wrappedLines? (s.forest.childrenOf record.node.tag) (width - column - 2) else none
    let forest := match lines? with
      | some lines => s.forest.setChildren record.node.tag (.link record.node.form record.node.position)
          [.leaf (.text (Text.joinWith ['\n'] lines))]
      | none => s.forest
    let text ← (children forest).renderInline
    let written := (lastLine text.strip).length
    .ok ⟨forest, s.wrapped + (if lines?.isSome then 1 else 0), column + written + 2, position.stop.column⟩

def reflowLine (report : Report) (width : Int) (state : Forest × Nat)
    (records : List (LinkRecord × Position)) : Except RenderError (Forest × Nat) := do
  let s ← records.foldlM (Reflowing.step report width) ⟨state.1, state.2, 0, 1⟩
  .ok (s.forest, s.wrapped)

/-- Wraps link texts that would overflow `width`, and tells how many. -/
def reflow (forest : Forest) (index : Index) (report : Report) (width : Int) :
    Except RenderError (Forest × Nat) :=
  (recordsByLine index).foldlM (reflowLine report width) (forest, 0)

end MarkdownLinks
