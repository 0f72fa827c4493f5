import MarkdownLinks.Node.Basic

/-!
# Walking and numbering

`walk` lists a node and everything below it, parents first. `number` gives each branch and definition of
a tree a place of its own in the same order.
-/

namespace MarkdownLinks

/-- A node met on a walk and the node it was reached through. -/
structure Visit where
  node : Node
  parent : Option Node

namespace Node

mutual

def walkFrom (parent : Option Node) : Node → List Visit
  | leaf l => ⟨leaf l, parent⟩ :: (leaf l).children.map fun child => ⟨child, some (leaf l)⟩
  | definition tag label target => [⟨definition tag label target, parent⟩]
  | branch tag container children =>
    ⟨branch tag container children, parent⟩ :: walkAll (some (branch tag container children)) children

/-- The walks of several children of one parent, one after the other. -/
def walkAll (parent : Option Node) : List Node → List Visit
  | [] => []
  | n :: ns => walkFrom parent n ++ walkAll parent ns

end

def walk (n : Node) : List Visit := walkFrom none n

mutual

/-- Numbers the branches and definitions of a tree in pre-order from `next` on, and tells the next free
number. -/
def number (next : Nat) : Node → Node × Nat
  | leaf l => (leaf l, next)
  | definition _ label target => (definition ⟨next, 0⟩ label target, next + 1)
  | branch _ container children =>
    let (children, free) := numberAll (next + 1) children
    (branch ⟨next, 0⟩ container children, free)

def numberAll (next : Nat) : List Node → List Node × Nat
  | [] => ([], next)
  | n :: ns =>
    let (n, free) := number next n
    let (ns, free) := numberAll free ns
    (n :: ns, free)

end

end Node
end MarkdownLinks
