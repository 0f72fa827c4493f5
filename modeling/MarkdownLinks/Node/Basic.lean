import MarkdownLinks.Position

/-!
# Document trees

A node is a leaf, a link definition or a branch with child nodes. Branches and definitions carry a tag,
so that a record made while looking at a tree can find its node again after the tree has changed.
-/

namespace MarkdownLinks

/-- Names a node through changes of its tree. `place` belongs to the slot and its list of children; `edition`
counts how often the node in that slot has been replaced. -/
structure Tag where
  place : Nat
  edition : Nat
  deriving DecidableEq, Repr, Inhabited

/-- The tag of the node that replaces one in the same slot. -/
def Tag.next (t : Tag) : Tag := ⟨t.place, t.edition + 1⟩

structure Target where
  dest : Text
  title : Option Text
  deriving DecidableEq, Repr

inductive ReferenceForm
  | full
  | collapsed
  | shortcut
  deriving DecidableEq, Repr

inductive LinkForm
  | inline (target : Target)
  | reference (label : Text) (form : ReferenceForm)
  deriving DecidableEq, Repr

def LinkForm.isReference : LinkForm → Bool
  | .inline _ => false
  | .reference _ _ => true

/-- The marker of the first item, and whether and from where items are numbered. A tight list has no
blank lines between items. -/
structure ListStyle where
  bullet : Text
  ordered : Bool
  start : Int
  tight : Bool
  deriving DecidableEq, Repr

inductive FrontMatterKind
  | yaml
  | toml
  deriving DecidableEq, Repr

/-- Nodes without child nodes of their own. The text of a block of code is `unescaped`: the block says how its lines
begin. -/
inductive Leaf
  | text (text : Text)
  | unescaped (text : Text)
  | literal (text : Text)
  | code (text : Text)
  | html (text : Text)
  | lineBreak (soft : Bool)
  | blankLine
  | thematicBreak
  | codeBlock (text : Text)
  | fencedCode (lang extra text : Text)
  | htmlBlock (body : Text)
  | frontMatter (body : Text) (kind : FrontMatterKind)
  deriving DecidableEq, Repr

inductive Container
  | document
  | paragraph
  | quote
  | list (style : ListStyle)
  | listItem
  | heading (underlined : Bool) (level : Int)
  | emphasis
  | strong
  | image (target : Target)
  | autoLink (dest : Text)
  | link (form : LinkForm) (position : Option Position)
  deriving DecidableEq, Repr

inductive Node
  | leaf (leaf : Leaf)
  | definition (tag : Tag) (label : Text) (target : Target)
  | branch (tag : Tag) (container : Container) (children : List Node)

instance : Inhabited Node := ⟨.leaf .blankLine⟩

namespace Node

mutual

def decEq : (m n : Node) → Decidable (m = n)
  | leaf l, leaf l' => decidable_of_iff (l = l') (by rw [leaf.injEq])
  | definition tag label target, definition tag' label' target' =>
    decidable_of_iff (tag = tag' ∧ label = label' ∧ target = target') (by rw [definition.injEq])
  | branch tag container ms, branch tag' container' ns =>
    have := decEqAll ms ns
    decidable_of_iff (tag = tag' ∧ container = container' ∧ ms = ns) (by rw [branch.injEq])
  | leaf _, definition _ _ _ | leaf _, branch _ _ _ | definition _ _ _, leaf _ | definition _ _ _, branch _ _ _
  | branch _ _ _, leaf _ | branch _ _ _, definition _ _ _ => isFalse Node.noConfusion

def decEqAll : (ms ns : List Node) → Decidable (ms = ns)
  | [], [] => isTrue rfl
  | m :: ms, n :: ns =>
    have := decEq m n
    have := decEqAll ms ns
    decidable_of_iff (m = n ∧ ms = ns) (by rw [List.cons.injEq])
  | [], n :: ns => isFalse (List.cons_ne_nil n ns).symm
  | m :: ms, [] => isFalse (List.cons_ne_nil m ms)

end

end Node

instance : DecidableEq Node := Node.decEq

def Leaf.codeText? : Leaf → Option Text
  | codeBlock body => some body
  | fencedCode _ _ body => some body
  | _ => none

namespace Node

def tag? : Node → Option Tag
  | leaf _ => none
  | definition tag _ _ => some tag
  | branch tag _ _ => some tag

/-- The child nodes. A block of code holds its text as its only child. -/
def children : Node → List Node
  | leaf l => (l.codeText?.map fun t => leaf (.unescaped t)).toList
  | definition _ _ _ => []
  | branch _ _ children => children

def isHeading : Node → Bool
  | branch _ (.heading _ _) _ => true
  | _ => false

def isBlankLine : Node → Bool
  | leaf .blankLine => true
  | _ => false

abbrev fresh (container : Container) (children : List Node) : Node := branch ⟨0, 0⟩ container children

end Node
end MarkdownLinks
