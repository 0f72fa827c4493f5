import MarkdownLinks.Proofs.Node.Rebuild

/-!
Trees that have a Markdown form. Whether rendering succeeds depends on the leaves alone: an empty code span and a
block of code without lines cannot be written, and an automatic link never writes its children. Passes that only
rearrange nodes keep a tree writable.
-/

namespace MarkdownLinks

theorem isOk_iff {ε α : Type} {x : Except ε α} : x.isOk ↔ ∃ a, x = .ok a := by
  cases x with
  | error e => simp [Except.isOk, Except.toBool]
  | ok a => simp [Except.isOk, Except.toBool]

theorem exists_ok_of_any {ε α : Type} {x : Except ε α} {p : α → Bool} (checked : x.toOption.any p = true) :
    ∃ a, x = .ok a ∧ p a := by
  cases x with
  | error e => exact nomatch checked
  | ok a => exact ⟨a, rfl, checked⟩

theorem isOk_bind {ε α β : Type} {x : Except ε α} {f : α → Except ε β} {p : Bool}
    (later : ∀ a, (f a).isOk = p) : (x >>= f).isOk = (x.isOk && p) := by
  cases x with
  | error e => rfl
  | ok a => exact (later a).trans (Bool.true_and p).symm

@[simp] theorem isOk_bind_ok {ε α β : Type} (x : Except ε α) (f : α → β) :
    (x >>= fun a => .ok (f a)).isOk = x.isOk := by
  cases x <;> rfl

/-- Whether a leaf has a Markdown form. -/
def Leaf.writable : Leaf → Bool
  | .code t => !t.isEmpty
  | .codeBlock t => !t.splitLines.isEmpty
  | _ => true

def Container.writesChildren : Container → Bool
  | .autoLink _ => false
  | _ => true

def Container.isLink : Container → Bool
  | .link _ _ => true
  | _ => false

theorem renderCodeSpan_isOk (t : Text) : (renderCodeSpan t).isOk = !t.isEmpty := by
  unfold renderCodeSpan
  cases t with
  | nil => rfl
  | cons c t =>
    rw [List.head?_cons, List.getLast?_eq_some_getLast (List.cons_ne_nil c t)]
    dsimp only
    split <;> rfl

theorem Leaf.render_isOk (rest first : Text) (l : Leaf) : (l.render rest first).isOk = l.writable := by
  cases l with
  | code t =>
    rw [Leaf.render, isOk_bind_ok]
    exact renderCodeSpan_isOk t
  | codeBlock t => cases lines : t.splitLines <;> simp [Leaf.render, Leaf.writable, lines, Except.isOk, Except.toBool]
  | _ => rfl

namespace Node

mutual

/-- Whether a tree has a Markdown form. -/
def writable : Node → Bool
  | leaf l => l.writable
  | definition _ _ _ => true
  | branch _ container children => !container.writesChildren || allWritable children

def allWritable : List Node → Bool
  | [] => true
  | n :: ns => writable n && allWritable ns

end

theorem allWritable_eq_all (ns : List Node) : allWritable ns = ns.all writable := by
  induction ns with
  | nil => rfl
  | cons n ns ih => rw [allWritable, ih, List.all_cons]

@[simp] theorem writable_leaf (l : Leaf) : (leaf l).writable = l.writable := rfl

@[simp] theorem writable_definition (tag : Tag) (label : Text) (target : Target) :
    (definition tag label target).writable = true := rfl

@[simp] theorem writable_branch (tag : Tag) (container : Container) (ns : List Node) :
    (branch tag container ns).writable = (!container.writesChildren || ns.all writable) := by
  rw [writable, allWritable_eq_all]

theorem renderAll_isOk_of {ns : List Node}
    (each : ∀ n ∈ ns, ∀ rest first, (renderAt rest first n).isOk = n.writable) (rest first : Text) :
    (renderAll rest first ns).isOk = ns.all writable := by
  induction ns generalizing first with
  | nil => rfl
  | cons n ns ih =>
    rw [renderAll, List.all_cons, ← each n List.mem_cons_self rest first]
    apply isOk_bind
    intro r
    rw [isOk_bind_ok, ih fun m inside => each m (List.mem_cons_of_mem _ inside)]

theorem renderItems_isOk_of {ns : List Node}
    (each : ∀ n ∈ ns, ∀ rest first, (renderAt rest first n).isOk = n.writable) (rest first : Text)
    (style : ListStyle) (index : Nat) : (renderItems rest first style index ns).isOk = ns.all writable := by
  induction ns generalizing index with
  | nil => rfl
  | cons n ns ih =>
    rw [renderItems, List.all_cons, ← each n List.mem_cons_self _ _]
    apply isOk_bind
    intro r
    rw [isOk_bind_ok, ih fun m inside => each m (List.mem_cons_of_mem _ inside)]

/-- Rendering succeeds exactly on writable trees, whatever the lines start with. -/
theorem renderAt_isOk (rest first : Text) (n : Node) : (renderAt rest first n).isOk = n.writable := by
  induction n generalizing rest first with
  | leaf l => exact l.render_isOk rest first
  | definition tag label target => rfl
  | branch tag container ns ih =>
    have all := renderAll_isOk_of ih
    have items := renderItems_isOk_of ih
    rw [writable_branch]
    cases container with
    | autoLink dest => rfl
    | list style =>
      rw [renderAt, isOk_bind_ok, items]
      rfl
    | _ =>
      simp only [renderAt]
      rw [isOk_bind_ok, all]
      rfl

theorem renderAll_isOk (rest first : Text) (ns : List Node) : (renderAll rest first ns).isOk = ns.all writable :=
  renderAll_isOk_of (fun n _ rest first => renderAt_isOk rest first n) rest first

theorem render_isOk (n : Node) : n.render.isOk = n.writable := by
  rw [render, isOk_bind_ok, renderAt_isOk]

theorem renderInline_isOk (n : Node) : n.renderInline.isOk = n.children.all writable := by
  rw [renderInline, isOk_bind_ok, renderAll_isOk]

/-! ### Collecting -/

/-- Whether the text of a node has a Markdown form, if the node is a link. -/
def textWritable : Node → Bool
  | branch _ (.link _ _) ns => ns.all writable
  | _ => true

/-- Whether all links of a tree have texts with a Markdown form. -/
def collectable (n : Node) : Bool := n.subnodes.all textWritable

theorem identity_isOk (n : Node) : n.identity.isOk = n.children.all writable := by
  rw [← renderInline_isOk, identity]
  cases n.renderInline <;> rfl

theorem add_isOk (index : Index) (v : Visit) : (index.add v).isOk = v.node.textWritable := by
  obtain ⟨node, parent⟩ := v
  cases node with
  | leaf l => rfl
  | definition tag label target => rfl
  | branch tag container ns =>
    cases container with
    | link form position =>
      rw [Index.add, isOk_bind_ok, identity_isOk]
      rfl
    | _ => rfl

theorem collect_isOk (index : Index) (tree : Node) : (index.collect tree).isOk = tree.collectable := by
  have run : ∀ (vs : List Visit) (index : Index),
      (vs.foldlM Index.add index).isOk = (vs.map (·.node)).all textWritable := by
    intro vs
    induction vs with
    | nil => exact fun _ => rfl
    | cons v vs ih =>
      intro index
      rw [List.foldlM_cons, List.map_cons, List.all_cons, ← add_isOk index v]
      exact isOk_bind fun next => ih next
  exact run tree.walk index

theorem collectable_eq {index : Index} {tree : Node} {collected : Except RenderError Index}
    (collect : index.collect tree = collected) : tree.collectable = collected.isOk := by
  rw [← collect_isOk index, collect]

@[simp] theorem collectable_leaf (l : Leaf) : (leaf l).collectable = true := by
  rw [collectable, List.all_eq_true]
  intro m member
  obtain ⟨l', rfl⟩ := eq_leaf_of_mem_subnodes_leaf member
  rfl

@[simp] theorem collectable_definition (tag : Tag) (label : Text) (target : Target) :
    (definition tag label target).collectable = true := rfl

@[simp] theorem collectable_branch (tag : Tag) (container : Container) (ns : List Node) :
    (branch tag container ns).collectable =
      ((!container.isLink || ns.all writable) && ns.all collectable) := by
  rw [collectable, subnodes_branch, List.all_cons, List.all_flatMap]
  cases container <;> rfl

/-! ### Rearranging -/

/-- Two containers that differ at most as links do. -/
def Alike (c c' : Container) : Prop := c' = c ∨ c.isLink ∧ c'.isLink

theorem Alike.isLink {c c' : Container} (alike : Alike c c') : c'.isLink = c.isLink := by
  rcases alike with rfl | ⟨link, link'⟩
  · rfl
  · rw [link, link']

theorem Alike.writesChildren {c c' : Container} (alike : Alike c c') : c'.writesChildren = c.writesChildren := by
  rcases alike with rfl | ⟨link, link'⟩
  · rfl
  · cases c <;> first | exact absurd link Bool.false_ne_true | skip
    cases c' <;> first | rfl | exact absurd link' Bool.false_ne_true

theorem writable_retag {φ : Tag → Container → Tag × Container} {n : Node}
    (alike : ∀ t c ns, .branch t c ns ∈ n.subnodes → Alike c (φ t c).2) (writable : n.writable) :
    (n.retag φ).writable := by
  induction n with
  | leaf l => exact writable
  | definition tag label target => rfl
  | branch tag container ns ih =>
    rw [retag_branch, writable_branch, Bool.or_eq_true, (alike _ _ _ (mem_subnodes_self _)).writesChildren]
    rw [writable_branch, Bool.or_eq_true] at writable
    apply writable.imp_right
    intro all
    rw [List.all_map, List.all_eq_true]
    intro m inside
    exact ih m inside (fun t c ms member => alike t c ms (mem_subnodes_of_child inside member))
      (List.all_eq_true.mp all m inside)

theorem collectable_retag {φ : Tag → Container → Tag × Container} {n : Node}
    (alike : ∀ t c ns, .branch t c ns ∈ n.subnodes → Alike c (φ t c).2) (collectable : n.collectable) :
    (n.retag φ).collectable := by
  induction n with
  | leaf l => exact collectable
  | definition tag label target => rfl
  | branch tag container ns ih =>
    rw [retag_branch, collectable_branch, Bool.and_eq_true, Bool.or_eq_true,
      (alike _ _ _ (mem_subnodes_self _)).isLink]
    rw [collectable_branch, Bool.and_eq_true, Bool.or_eq_true] at collectable
    obtain ⟨text, below⟩ := collectable
    have inner : ∀ m ∈ ns, ∀ t c ms, .branch t c ms ∈ m.subnodes → Alike c (φ t c).2 :=
      fun m inside t c ms member => alike t c ms (mem_subnodes_of_child inside member)
    refine ⟨text.imp_right fun all => ?_, ?_⟩
    · rw [List.all_map, List.all_eq_true]
      intro m inside
      exact writable_retag (inner m inside) (List.all_eq_true.mp all m inside)
    · rw [List.all_map, List.all_eq_true]
      intro m inside
      exact ih m inside (inner m inside) (List.all_eq_true.mp below m inside)

/-- The children that a change leaves are old ones or new texts. -/
def Keeps (κ : Tag → List Node → List Node) : Prop :=
  ∀ t ns, ∀ m ∈ κ t ns, m ∈ ns ∨ ∃ text, m = leaf (.text text)

theorem Keeps.tags {κ : Tag → List Node → List Node} (keeps : Keeps κ) (t : Tag) (ns : List Node) :
    ∀ m ∈ κ t ns, m ∈ ns ∨ m.tag? = none := by
  intro m inside
  rcases keeps t ns m inside with old | ⟨text, rfl⟩
  · exact Or.inl old
  · exact Or.inr rfl

theorem all_of_keeps {κ : Tag → List Node → List Node} (keeps : Keeps κ) {p : Node → Bool}
    (texts : ∀ t, p (leaf (.text t))) {t : Tag} {ns : List Node} (all : ns.all p) : (κ t ns).all p := by
  rw [List.all_eq_true] at all ⊢
  intro m inside
  rcases keeps t ns m inside with old | ⟨text, rfl⟩
  · exact all m old
  · exact texts text

theorem writable_rebuild {κ : Tag → List Node → List Node} (keeps : Keeps κ) {n : Node} (writable : n.writable) :
    (n.rebuild κ).writable := by
  induction n with
  | leaf l => exact writable
  | definition tag label target => rfl
  | branch tag container ns ih =>
    rw [rebuild_branch, writable_branch, Bool.or_eq_true]
    rw [writable_branch, Bool.or_eq_true] at writable
    refine writable.imp_right fun all => all_of_keeps keeps (fun _ => rfl) ?_
    rw [List.all_map, List.all_eq_true]
    intro m inside
    exact ih m inside (List.all_eq_true.mp all m inside)

theorem collectable_rebuild {κ : Tag → List Node → List Node} (keeps : Keeps κ) {n : Node}
    (collectable : n.collectable) : (n.rebuild κ).collectable := by
  induction n with
  | leaf l => exact collectable
  | definition tag label target => rfl
  | branch tag container ns ih =>
    rw [rebuild_branch, collectable_branch, Bool.and_eq_true, Bool.or_eq_true]
    rw [collectable_branch, Bool.and_eq_true, Bool.or_eq_true] at collectable
    obtain ⟨text, below⟩ := collectable
    refine ⟨text.imp_right fun all => ?_, ?_⟩
    · refine all_of_keeps keeps (fun _ => rfl) ?_
      rw [List.all_map, List.all_eq_true]
      intro m inside
      exact writable_rebuild keeps (List.all_eq_true.mp all m inside)
    · refine all_of_keeps keeps (fun _ => collectable_leaf _) ?_
      rw [List.all_map, List.all_eq_true]
      intro m inside
      exact ih m inside (List.all_eq_true.mp below m inside)

end Node
end MarkdownLinks
