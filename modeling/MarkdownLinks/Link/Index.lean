import MarkdownLinks.Label
import MarkdownLinks.Node.Render
import MarkdownLinks.Node.Walk

/-!
# The index of links

One walk over a tree records its links, definitions and headings. Links are grouped by identity, the
normal form of their text; an index can go on to collect from further trees.
-/

namespace MarkdownLinks

/-- What a record takes to be the parent of its node. -/
inductive Parent
  | none
  | branch (tag : Tag) (container : Container)
  | leaf
  deriving DecidableEq, Repr

/-- The node of a link record: its tag, what it is, and where its source stands. -/
structure LinkNode where
  tag : Tag
  form : LinkForm
  position : Option Position
  deriving DecidableEq, Repr

/-- One link found in a tree. `heading` is the number of headings before it. -/
structure LinkRecord where
  id : Nat
  heading : Nat
  node : LinkNode
  parent : Parent
  identity : Text
  deriving DecidableEq, Repr

structure DefinitionRecord where
  identifier : Text
  tag : Tag
  target : Target
  parent : Parent
  deriving DecidableEq, Repr

/-- One heading found in a tree. Headings are numbered from one on. -/
structure HeadingRecord where
  number : Nat
  tag : Tag
  underlined : Bool
  deriving DecidableEq, Repr

/-- The links, definitions and headings of trees in walk order. `ids` numbers the identities from one on,
`groups` lists for each the places of its links in `links`, and `byIdentifier` tells for each identifier
the place of its first definition. -/
structure Index where
  links : List LinkRecord
  ids : List (Text × Nat)
  groups : List (Text × List Nat)
  definitions : List DefinitionRecord
  byIdentifier : List (Text × Nat)
  headings : List HeadingRecord
  deriving DecidableEq, Repr

def Visit.parentOf (v : Visit) : Parent :=
  match v.parent with
  | some (.branch tag container _) => .branch tag container
  | some _ => .leaf
  | none => .none

/-- The identity of a link: its text as Markdown in normal form. -/
def Node.identity (n : Node) : Except RenderError Text := (·.normalize) <$> n.renderInline

namespace Index

def empty : Index := ⟨[], [], [], [], [], []⟩

def addToGroup (identity : Text) (i : Nat) : List (Text × List Nat) → List (Text × List Nat)
  | [] => [(identity, [i])]
  | (key, is) :: groups =>
    if key = identity then (key, is ++ [i]) :: groups else (key, is) :: addToGroup identity i groups

/-- Records a definition; the first one of an identifier keeps it. -/
def addDefinition (index : Index) (tag : Tag) (label : Text) (target : Target) (parent : Parent) : Index :=
  let identifier := identifierOf label
  let known := index.byIdentifier.any (·.1 = identifier)
  { index with
    definitions := index.definitions ++ [⟨identifier, tag, target, parent⟩]
    byIdentifier :=
      if known then index.byIdentifier else index.byIdentifier ++ [(identifier, index.definitions.length)] }

def addLink (index : Index) (node : LinkNode) (identity : Text) (parent : Parent) : Index :=
  if identity.isEmpty then index
  else
    let fresh := index.ids.length + 1
    let known := index.ids.lookup identity
    { index with
      links := index.links ++ [⟨known.getD fresh, index.headings.length, node, parent, identity⟩]
      ids := if known.isSome then index.ids else index.ids ++ [(identity, fresh)]
      groups := addToGroup identity index.links.length index.groups }

def addHeading (index : Index) (tag : Tag) (underlined : Bool) : Index :=
  { index with headings := index.headings ++ [⟨index.headings.length + 1, tag, underlined⟩] }

def add (index : Index) (v : Visit) : Except RenderError Index :=
  match v.node with
  | .definition tag label target => .ok (index.addDefinition tag label target v.parentOf)
  | .branch tag (.heading underlined _) _ => .ok (index.addHeading tag underlined)
  | .branch tag (.link form position) _ => do
    .ok (index.addLink ⟨tag, form, position⟩ (← v.node.identity) v.parentOf)
  | _ => .ok index

def collect (index : Index) (tree : Node) : Except RenderError Index := tree.walk.foldlM add index

def definition? (index : Index) (identifier : Text) : Option DefinitionRecord := do
  index.definitions[← index.byIdentifier.lookup identifier]?

/-- The number of the heading with a tag, the latest if it has been met more than once. -/
def headingNumber? (index : Index) (tag : Tag) : Option Nat :=
  (index.headings.reverse.find? (·.tag = tag)).map (·.number)

def identities (index : Index) : Nat := index.groups.length

end Index
end MarkdownLinks
