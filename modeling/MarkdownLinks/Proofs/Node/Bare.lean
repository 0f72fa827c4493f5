import MarkdownLinks.Proofs.Node.Writable

/-!
Trees as they are written. Tags are names for records, and the positions of links tell where they were read; what a
tree is written as depends on neither.
-/

namespace MarkdownLinks

/-- What a node is, without the place where it was read. -/
def Container.bare : Container → Container
  | .link form _ => .link form none
  | container => container

namespace Node

mutual

/-- The tree without tags and positions. -/
def bare : Node → Node
  | leaf l => leaf l
  | definition _ label target => definition ⟨0, 0⟩ label target
  | branch _ container children => branch ⟨0, 0⟩ container.bare (bareAll children)

def bareAll : List Node → List Node
  | [] => []
  | n :: ns => bare n :: bareAll ns

end

theorem bareAll_eq_map (ns : List Node) : bareAll ns = ns.map bare := by
  induction ns with
  | nil => rfl
  | cons n ns ih => rw [bareAll, ih, List.map_cons]

@[simp] theorem bare_leaf (l : Leaf) : (leaf l).bare = leaf l := rfl

@[simp] theorem bare_definition (tag : Tag) (label : Text) (target : Target) :
    (definition tag label target).bare = definition ⟨0, 0⟩ label target := rfl

@[simp] theorem bare_branch (tag : Tag) (container : Container) (ns : List Node) :
    (branch tag container ns).bare = branch ⟨0, 0⟩ container.bare (ns.map bare) := by
  rw [bare, bareAll_eq_map]

theorem children_bare (n : Node) : n.bare.children = n.children.map bare := by
  cases n with
  | leaf l => cases l <;> rfl
  | definition tag label target => rfl
  | branch tag container ns => rw [bare_branch, children, children]

theorem bare_bare (n : Node) : n.bare.bare = n.bare := by
  induction n with
  | leaf l => rfl
  | definition tag label target => rfl
  | branch tag container ns ih =>
    have same : container.bare.bare = container.bare := by cases container <;> rfl
    rw [bare_branch, bare_branch, same, List.map_map]
    congr 1
    exact List.map_congr_left ih

mutual

/-- The tree without tags, but with positions. -/
def untagged : Node → Node
  | leaf l => leaf l
  | definition _ label target => definition ⟨0, 0⟩ label target
  | branch _ container children => branch ⟨0, 0⟩ container (untaggedAll children)

def untaggedAll : List Node → List Node
  | [] => []
  | n :: ns => untagged n :: untaggedAll ns

end

theorem untaggedAll_eq_map (ns : List Node) : untaggedAll ns = ns.map untagged := by
  induction ns with
  | nil => rfl
  | cons n ns ih => rw [untaggedAll, ih, List.map_cons]

@[simp] theorem untagged_branch (tag : Tag) (container : Container) (ns : List Node) :
    (branch tag container ns).untagged = branch ⟨0, 0⟩ container (ns.map untagged) := by
  rw [untagged, untaggedAll_eq_map]

theorem bare_retag {φ : Tag → Container → Tag × Container} (containers : ∀ t c, (φ t c).2.bare = c.bare) (n : Node) :
    (n.retag φ).bare = n.bare := by
  induction n with
  | leaf l => rfl
  | definition tag label target => rfl
  | branch tag container ns ih =>
    rw [retag_branch, bare_branch, bare_branch, containers, List.map_map]
    congr 1
    exact List.map_congr_left ih

@[simp] theorem bare_isBlankLine (n : Node) : n.bare.isBlankLine = n.isBlankLine := by
  cases n <;> simp [isBlankLine]

@[simp] theorem bare_isHeading (n : Node) : n.bare.isHeading = n.isHeading := by
  cases n with
  | leaf l => rfl
  | definition tag label target => rfl
  | branch tag container ns => cases container <;> simp [isHeading, Container.bare]

theorem subnodes_bare (n : Node) : n.bare.subnodes = n.subnodes.map bare := by
  induction n with
  | leaf l => cases l <;> rfl
  | definition tag label target => rfl
  | branch tag container ns ih =>
    rw [bare_branch, subnodes_branch, subnodes_branch, List.map_cons, bare_branch, List.flatMap_map, List.map_flatMap]
    congr 1
    exact List.flatMap_congr ih

theorem filterMap_bare {β : Type} {f g : Node → Option β} (each : ∀ n, f n.bare = g n) (n : Node) :
    n.bare.subnodes.filterMap f = n.subnodes.filterMap g := by
  rw [subnodes_bare, List.filterMap_map]
  exact List.filterMap_congr fun m _ => each m

theorem renderAll_bare_of {ns : List Node} (each : ∀ n ∈ ns, ∀ rest first, renderAt rest first n.bare = renderAt rest first n)
    (rest first : Text) : renderAll rest first (ns.map bare) = renderAll rest first ns := by
  induction ns generalizing first with
  | nil => rfl
  | cons n ns ih =>
    have later := ih fun m inside => each m (List.mem_cons_of_mem _ inside)
    rw [List.map_cons, renderAll, renderAll, each n List.mem_cons_self]
    simp only [later]

theorem renderItems_bare_of {ns : List Node}
    (each : ∀ n ∈ ns, ∀ rest first, renderAt rest first n.bare = renderAt rest first n) (rest first : Text)
    (style : ListStyle) (index : Nat) :
    renderItems rest first style index (ns.map bare) = renderItems rest first style index ns := by
  induction ns generalizing index with
  | nil => rfl
  | cons n ns ih =>
    have later := ih fun m inside => each m (List.mem_cons_of_mem _ inside)
    rw [List.map_cons, renderItems, renderItems, each n List.mem_cons_self]
    simp only [later]

theorem renderAt_bare (rest first : Text) (n : Node) : renderAt rest first n.bare = renderAt rest first n := by
  induction n generalizing rest first with
  | leaf l => rfl
  | definition tag label target => rfl
  | branch tag container ns ih =>
    have all := renderAll_bare_of ih
    have items := renderItems_bare_of ih
    rw [bare_branch]
    cases container with
    | autoLink dest => rfl
    | list style => simp only [Container.bare, renderAt, items]
    | link form position =>
      have same : (Container.link form none).delimiters = (Container.link form position).delimiters := by
        cases form with
        | inline target => rfl
        | reference label written => cases written <;> rfl
      simp only [Container.bare, renderAt, all, same]
    | _ => simp only [Container.bare, renderAt, all]

/-- Trees that differ in tags and positions only are written alike. -/
theorem render_congr {n m : Node} (same : n.bare = m.bare) : n.render = m.render := by
  rw [render, render, ← renderAt_bare, same, renderAt_bare]

theorem writable_bare (n : Node) : n.bare.writable = n.writable := by
  rw [← renderAt_isOk [] [], renderAt_bare, renderAt_isOk]

theorem collectable_bare (n : Node) : n.bare.collectable = n.collectable := by
  rw [collectable, collectable, subnodes_bare, List.all_map]
  refine congrArg (List.all _) (funext fun m => ?_)
  cases m with
  | leaf l => rfl
  | definition tag label target => rfl
  | branch tag container ns =>
    rw [Function.comp_apply, bare_branch]
    cases container with
    | link form position =>
      rw [Container.bare, textWritable, textWritable, List.all_map]
      exact congrArg (List.all ns) (funext writable_bare)
    | _ => rfl

theorem renderInline_bare (tag : Tag) (container : Container) (ns : List Node) :
    (branch tag container (ns.map bare)).renderInline = (branch tag container ns).renderInline := by
  rw [renderInline, renderInline, children, children, renderAll_bare_of fun n _ rest first => renderAt_bare rest first n]

/-! ### Numbering -/

theorem numberAll_bare_of {ns : List Node} (each : ∀ n ∈ ns, ∀ next, (number next n).1.bare = n.bare) (next : Nat) :
    (numberAll next ns).1.map bare = ns.map bare := by
  induction ns generalizing next with
  | nil => rfl
  | cons n ns ih =>
    have later := ih (fun m inside => each m (List.mem_cons_of_mem _ inside)) (number next n).2
    change bare (number next n).1 :: (numberAll (number next n).2 ns).1.map bare = _
    rw [each n List.mem_cons_self, later, List.map_cons]

theorem number_bare (next : Nat) (n : Node) : (number next n).1.bare = n.bare := by
  induction n generalizing next with
  | leaf l => rfl
  | definition tag label target => rfl
  | branch tag container ns ih =>
    change (branch ⟨next, 0⟩ container (numberAll (next + 1) ns).1).bare = _
    rw [bare_branch, bare_branch, numberAll_bare_of ih]

end Node

end MarkdownLinks
