import MarkdownLinks.Document
import MarkdownLinks.Link.Place
import MarkdownLinks.Link.Reflow
import MarkdownLinks.Link.Rewrite

/-!
# Collecting link targets

`Forest.transform` turns the inline links of a document into references with definitions at the ends of its
sections: collect, detect conflicts, reflow if there is a column budget, rewrite, place.
-/

namespace MarkdownLinks

structure Stats where
  converted : Nat
  conflicts : Nat
  added : Nat
  deriving DecidableEq, Repr

inductive Event
  | collected (links identities definitions headings conflicts : Nat)
  | reflowed (width : Int) (wrapped : Nat)
  | rewritten (converted : Nat)
  | placed (sections added : Nat)
  deriving DecidableEq, Repr

def Stats.zero : Stats := ⟨0, 0, 0⟩

/-- The trees after a run, the index whose records have followed their links, the counters of the run and what
its passes told. -/
structure Outcome where
  forest : Forest
  index : Index
  stats : Stats
  events : List Event

/-- Reflows the document if there is a column budget, and tells of it. -/
def Forest.reflowWithin (forest : Forest) (index : Index) (report : Report) :
    Option Int → Except RenderError (Forest × List Event)
  | some width => do
    let (forest, wrapped) ← reflow forest index report width
    .ok (forest, [Event.reflowed width wrapped])
  | none => .ok (forest, [])

def Forest.transform (forest : Forest) (columnWidth : Option Int) : Except RenderError Outcome := do
  let index ← Index.empty.collect forest.document
  let report := Report.detect index
  let collected := Event.collected index.links.length index.identities index.definitions.length
    index.headings.length report.conflictsFound
  let (forest, reflowed) ← forest.reflowWithin index report columnWidth
  let r := Rewriting.run report ⟨forest, index, 0⟩
  let p := placeDefinitions r.forest r.index report
  .ok ⟨p.forest, r.index, ⟨r.converted, report.conflictsFound, p.added⟩,
    collected :: (reflowed ++ [.rewritten r.converted, .placed p.sections p.added])⟩

/-- The transformation of a tree that is numbered from zero on, up to below `fresh`. -/
def Node.transform (tree : Node) (fresh : Nat) (columnWidth : Option Int) : Except RenderError Outcome :=
  (Forest.ofDocument tree fresh).transform columnWidth

/-- The transformation of a text: the new text and the counters. -/
def transformText (t : Text) (columnWidth : Option Int) : Except RenderError (Text × Stats) := do
  let (tree, fresh) := Document.parseFrom 0 t
  let outcome ← tree.transform fresh columnWidth
  .ok (← outcome.forest.document.render, outcome.stats)

end MarkdownLinks
