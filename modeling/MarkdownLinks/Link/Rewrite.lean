import MarkdownLinks.Link.Conflict
import MarkdownLinks.Link.Forest

/-!
# Rewriting links

Links of an identity with one destination become shortcut references labelled with the identity. References of
an identity in conflict become inline links. Everything else stays as it is.
-/

namespace MarkdownLinks

/-- The trees, the index into them and the number of links converted so far. -/
structure Rewriting where
  forest : Forest
  index : Index
  converted : Nat

namespace Rewriting

/-- Replaces the node of a link by one of another form. The new node takes over slot, children and
position; the record follows it. Without effect if the recorded parent does not hold the node. -/
def replace? (r : Rewriting) (i : Nat) (record : LinkRecord) (form : LinkForm) : Option Rewriting :=
  match record.parent with
  | .branch parent _ =>
    if r.forest.holds record.parent record.node.tag then
      let node := { record.node with tag := record.node.tag.next, form }
      let swap (n : Node) : Node :=
        if n.tag? = some record.node.tag then .branch node.tag (.link form node.position) n.children else n
      some { r with
        forest := r.forest.mapChildren parent (·.map swap)
        index := { r.index with links := r.index.links.set i { record with node } } }
    else none
  | _ => none

/-- Changes the form of a reference in place, in the trees and in all records of it. -/
def relabel (r : Rewriting) (tag : Tag) (form : LinkForm) : Rewriting :=
  let change (container : Container) : Container :=
    match container with
    | .link _ position => .link form position
    | c => c
  let update (record : LinkRecord) : LinkRecord :=
    if record.node.tag = tag then { record with node := { record.node with form } } else record
  { r with
    forest := r.forest.mapAt tag fun container children => .branch tag (change container) children
    index := { r.index with links := r.index.links.map update } }

def step (report : Report) (r : Rewriting) (i : Nat) : Rewriting :=
  match r.index.links[i]? with
  | none => r
  | some record =>
    let form := record.node.form
    if report.isConflicting record.id then
      match form, r.index.resolve form with
      | .reference _ _, (some url, title) => (r.replace? i record (.inline ⟨url, title⟩)).getD r
      | _, _ => r
    else if (report.resolvedUrl record.id).isNone then r
    else
      let shortcut := .reference record.identity .shortcut
      match form with
      | .reference _ _ => r.relabel record.node.tag shortcut
      | .inline _ => match r.replace? i record shortcut with
        | some r => { r with converted := r.converted + 1 }
        | none => r

def run (report : Report) (r : Rewriting) : Rewriting :=
  (List.range r.index.links.length).foldl (step report) r

end Rewriting
end MarkdownLinks
