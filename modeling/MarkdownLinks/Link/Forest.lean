import MarkdownLinks.Link.Index

/-!
# Trees that change

A document together with the trees that records may still point into: earlier documents, and nodes that
have been taken out of theirs. A node that replaces another takes over its list of children, so a tag
that is no longer in any tree stands for the node in the same place.
-/

namespace MarkdownLinks

namespace Node

mutual

def mapBranches (f : Tag → Container → List Node → Node) : Node → Node
  | leaf l => leaf l
  | definition tag label target => definition tag label target
  | branch tag container children => f tag container (mapAllBranches f children)

def mapAllBranches (f : Tag → Container → List Node → Node) : List Node → List Node
  | [] => []
  | n :: ns => mapBranches f n :: mapAllBranches f ns

end

mutual

def findBranch? (p : Tag → Bool) : Node → Option Node
  | leaf _ => none
  | definition _ _ _ => none
  | branch tag container children =>
    if p tag then some (branch tag container children) else findAmong? p children

def findAmong? (p : Tag → Bool) : List Node → Option Node
  | [] => none
  | n :: ns => findBranch? p n <|> findAmong? p ns

end

end Node

/-- The current document, the other trees that are still referred to, and a number above all places in use. -/
structure Forest where
  document : Node
  others : List Node
  fresh : Nat

namespace Forest

def ofDocument (document : Node) (fresh : Nat) : Forest := ⟨document, [], fresh⟩

def trees (f : Forest) : List Node := f.document :: f.others

def branch? (f : Forest) (tag : Tag) : Option Node := Node.findAmong? (· = tag) f.trees

/-- The branch that holds the children of the node with this tag: the node itself, or the one that has
replaced it. -/
def holder? (f : Forest) (tag : Tag) : Option Node :=
  f.branch? tag <|> Node.findAmong? (·.place = tag.place) f.trees

def childrenOf (f : Forest) (tag : Tag) : List Node := ((f.holder? tag).map Node.children).getD []

def mapAt (f : Forest) (tag : Tag) (g : Container → List Node → Node) : Forest :=
  let change := Node.mapBranches fun t container children =>
    if t = tag then g container children else .branch t container children
  { f with document := change f.document, others := f.others.map change }

/-- Changes the list of children that the node with this tag shares with those that replaced it. -/
def mapChildren (f : Forest) (tag : Tag) (g : List Node → List Node) : Forest :=
  match (f.holder? tag).bind Node.tag? with
  | some holder => f.mapAt holder fun container children => .branch holder container (g children)
  | none => f

/-- Gives a node a list of children of its own. A node that has been replaced keeps it apart from its
replacement. -/
def setChildren (f : Forest) (tag : Tag) (container : Container) (children : List Node) : Forest :=
  if (f.branch? tag).isSome then f.mapAt tag fun container _ => .branch tag container children
  else { f with others := f.others ++ [.branch tag container children] }

/-- Whether the children of a record's parent include the node with this tag. -/
def holds (f : Forest) (parent : Parent) (tag : Tag) : Bool :=
  match parent with
  | .branch p _ => (f.childrenOf p).any (·.tag? = some tag)
  | _ => false

end Forest
end MarkdownLinks
