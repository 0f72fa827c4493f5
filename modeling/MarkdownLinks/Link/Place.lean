import MarkdownLinks.Link.Conflict
import MarkdownLinks.Link.Forest

/-!
# Placing definitions

All definitions that a document has are taken out. The document is cut into sections at its headings, and each
identity with one destination gets a definition at the end of the first section that refers to it.
-/

namespace MarkdownLinks

/-- A list without blank lines that follow another; `skip` tells that one goes right before the list. -/
def collapseBlankLines (skip : Bool) : List Node → List Node
  | [] => []
  | n :: ns =>
    if n.isBlankLine then (if skip then collapseBlankLines true ns else n :: collapseBlankLines true ns)
    else n :: collapseBlankLines false ns

def dropLastBlankLines (ns : List Node) : List Node := (ns.reverse.dropWhile Node.isBlankLine).reverse

def sections (ns : List Node) : List (List Node) := go [] ns
where
  go (current : List Node) : List Node → List (List Node)
    | [] => [current.reverse]
    | n :: ns =>
      if n.isHeading && !current.isEmpty then current.reverse :: go [n] ns else go (n :: current) ns

structure NewDefinition where
  id : Nat
  label : Text
  target : Target
  deriving DecidableEq, Repr

def referenceRecord? (index : Index) (tag : Tag) : Option LinkRecord :=
  index.links.reverse.find? fun r => r.node.tag = tag && r.node.form.isReference

/-- The definition that a node calls for, if it is a reference of an identity with one destination. -/
def newDefinition? (index : Index) (report : Report) (n : Node) : Option NewDefinition := do
  let record ← referenceRecord? index (← n.tag?)
  let url ← report.resolvedUrl record.id
  some ⟨record.id, record.identity, ⟨url, report.title record.id⟩⟩

/-- The definitions that a section calls for and that earlier sections, which made those of `placed`, do not
have, in order of discovery. -/
def newDefinitions (index : Index) (report : Report) (placed : List Nat) (ns : List Node) :
    List NewDefinition :=
  (Node.walkAll none ns).foldl (fun found v =>
    match newDefinition? index report v.node with
    | some d => if placed.contains d.id || found.any (·.id = d.id) then found else found ++ [d]
    | none => found) []

/-- Puts a definition in front of those with a greater label. -/
def insertByLabel (d : NewDefinition) : List NewDefinition → List NewDefinition
  | [] => [d]
  | e :: es => if Text.le d.label e.label then d :: e :: es else e :: insertByLabel d es

def sortByLabel (ds : List NewDefinition) : List NewDefinition := ds.foldr insertByLabel []

def definitionNodes (fresh : Nat) : List NewDefinition → List Node
  | [] => []
  | d :: ds => .definition ⟨fresh, 0⟩ d.label d.target :: definitionNodes (fresh + 1) ds

/-- A section with definitions at its end, set off by blank lines. The last section ends with them. -/
def attach (content definitions : List Node) (isLast : Bool) : List Node :=
  let trimmed := if isLast || !definitions.isEmpty then dropLastBlankLines content else content
  if definitions.isEmpty then trimmed
  else
    let gap : List Node := [.leaf .blankLine]
    trimmed ++ (if trimmed.isEmpty then [] else gap) ++ definitions ++ (if isLast then [] else gap)

/-- The children of a document with the definitions that its sections call for, and the number of those. -/
def placeInSections (index : Index) (report : Report) : List Nat → Nat → List (List Node) → List Node × Nat
  | _, _, [] => ([], 0)
  | placed, fresh, ns :: rest =>
    let ds := newDefinitions index report placed ns
    let nodes := definitionNodes fresh (sortByLabel ds)
    let (later, count) := placeInSections index report (placed ++ ds.map (·.id)) (fresh + ds.length) rest
    (attach ns nodes rest.isEmpty ++ later, ds.length + count)

/-- Takes a recorded definition out of its parent's list, and adds the parent to those that have lost one. -/
def dropDefinition (state : Forest × List (Tag × Container)) (record : DefinitionRecord) :
    Forest × List (Tag × Container) :=
  let (forest, parents) := state
  match record.parent with
  | .branch tag container =>
    if forest.holds record.parent record.tag then
      (forest.mapChildren tag (·.filter fun n => n.tag? ≠ some record.tag),
        if parents.any (·.1 = tag) then parents else parents ++ [(tag, container)])
    else (forest, parents)
  | _ => (forest, parents)

/-- Takes the definitions of an index out of their parents' lists, and tells which nodes have lost one. -/
def dropDefinitions (forest : Forest) (index : Index) : Forest × List (Tag × Container) :=
  index.definitions.foldl dropDefinition (forest, [])

/-- Takes the blank lines out of a node's list that have come to lie together. At the start of the document none
are left. -/
def tidyChildren (forest : Forest) (parent : Tag × Container) : Forest :=
  forest.setChildren parent.1 parent.2
    (collapseBlankLines (forest.document.tag? = some parent.1) (forest.childrenOf parent.1))

/-- Takes all definitions of an index out, and the blank lines that come to lie together where they stood. -/
def removeDefinitions (forest : Forest) (index : Index) : Forest :=
  let (forest, parents) := dropDefinitions forest index
  parents.foldl tidyChildren forest

/-- The trees after definitions have been placed, the number of sections and that of new definitions. -/
structure Placement where
  forest : Forest
  sections : Nat
  added : Nat

/-- Replaces the definitions of the document by those that its references call for. -/
def placeDefinitions (forest : Forest) (index : Index) (report : Report) : Placement :=
  let forest := removeDefinitions forest index
  match forest.document with
  | .branch tag _ ns =>
    let (children, added) := placeInSections index report [] forest.fresh (sections ns)
    let forest := forest.mapAt tag fun container _ => .branch tag container children
    ⟨{ forest with fresh := forest.fresh + added }, (sections ns).length, added⟩
  | _ => ⟨forest, 1, 0⟩

end MarkdownLinks
