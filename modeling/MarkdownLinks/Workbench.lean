import MarkdownLinks.Link.Transform

/-!
# The workbench

A document on which the passes can be run one by one, with the index, the report and the counters that they
share. Index and report may be older than the document.
-/

namespace MarkdownLinks

structure Workbench where
  forest : Forest
  index : Index
  report : Report
  stats : Stats

namespace Workbench

/-- Starts with a fresh index and report on a tree that is numbered from zero to below `fresh`. -/
def ofTree (tree : Node) (fresh : Nat) : Except RenderError Workbench := do
  let index ← Index.empty.collect tree
  .ok ⟨.ofDocument tree fresh, index, .detect index, .zero⟩

def collect (w : Workbench) : Except RenderError Workbench := do
  let index ← Index.empty.collect w.forest.document
  .ok { w with index, report := .detect index }

def collectMore (w : Workbench) : Except RenderError Workbench := do
  .ok { w with index := ← w.index.collect w.forest.document }

def detect (w : Workbench) : Workbench := { w with report := .detect w.index }

/-- What a record can be told to take for its parent. -/
inductive NewParent
  | none
  | stranger
  | leaf
  deriving DecidableEq, Repr

/-- The parent that a record is told to take; a stranger is a paragraph outside all trees. -/
def NewParent.toParent (fresh : Nat) : NewParent → Parent
  | none => .none
  | stranger => .branch ⟨fresh, 0⟩ .paragraph
  | leaf => .leaf

/-- The place that an index stands for in a list of `n`; negative ones count from the end. -/
def placeOf? (n : Nat) (i : Int) : Option Nat :=
  let k := if i < 0 then i + n else i
  if 0 ≤ k && k < n then some k.toNat else Option.none

def setLinkParent? (w : Workbench) (i : Int) (parent : NewParent) : Option Workbench := do
  let k ← placeOf? w.index.links.length i
  let change (r : LinkRecord) : LinkRecord := { r with parent := parent.toParent w.forest.fresh }
  some { w with
    forest := { w.forest with fresh := w.forest.fresh + 1 }
    index := { w.index with links := w.index.links.modify k change } }

def setDefinitionParent? (w : Workbench) (i : Int) (parent : NewParent) : Option Workbench := do
  let k ← placeOf? w.index.definitions.length i
  let change (r : DefinitionRecord) : DefinitionRecord := { r with parent := parent.toParent w.forest.fresh }
  some { w with
    forest := { w.forest with fresh := w.forest.fresh + 1 }
    index := { w.index with definitions := w.index.definitions.modify k change } }

/-- Reflows link texts; the number of wrapped links comes with the result. -/
def reflow (w : Workbench) (width : Int) : Except RenderError (Nat × Workbench) := do
  let (forest, wrapped) ← MarkdownLinks.reflow w.forest w.index w.report width
  .ok (wrapped, { w with forest })

def rewrite (w : Workbench) : Workbench :=
  let r := Rewriting.run w.report ⟨w.forest, w.index, w.stats.converted⟩
  { w with forest := r.forest, index := r.index, stats := { w.stats with converted := r.converted } }

def place (w : Workbench) : Workbench :=
  let p := placeDefinitions w.forest w.index w.report
  { w with forest := p.forest, stats := { w.stats with added := w.stats.added + p.added } }

/-- A record with the form that its reference has in the trees. -/
def refresh (f : Forest) (r : LinkRecord) : LinkRecord :=
  match f.branch? r.node.tag with
  | some (.branch _ (.link form _) _) => { r with node := { r.node with form } }
  | _ => r

/-- Transforms the document as a whole. The index and the report stay, but records see their references
relabelled. -/
def transform (w : Workbench) (columnWidth : Option Int) : Except RenderError Workbench := do
  let outcome ← w.forest.transform columnWidth
  .ok { w with
    forest := outcome.forest
    index := { w.index with links := w.index.links.map (refresh outcome.forest) }
    stats := outcome.stats }

/-- Writes the document and reads it again. Records go on to point into the old tree. -/
def reparse (w : Workbench) : Except RenderError Workbench := do
  let (document, fresh) := Document.parseFrom w.forest.fresh (← w.forest.document.render)
  .ok { w with forest := ⟨document, w.forest.others ++ [w.forest.document], fresh⟩ }

def resolve (w : Workbench) : List (Option Text × Option Text) :=
  w.index.links.map fun r => w.index.resolve r.node.form

end Workbench
end MarkdownLinks
