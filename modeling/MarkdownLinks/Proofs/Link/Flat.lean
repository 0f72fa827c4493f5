import MarkdownLinks.Proofs.Inline.Nesting
import MarkdownLinks.Proofs.Link.Text

/-!
Documents that are read from a text are flat: definitions are blocks, and no link lies in another.
-/

namespace MarkdownLinks

namespace Node

theorem flat_branch {tag : Tag} {container : Container} {ns : List Node} (own : (branch tag container ns).plainText)
    (each : ∀ n ∈ ns, n.flat) : (branch tag container ns).flat := by
  apply List.all_eq_true.mpr
  intro m member
  rw [subnodes_branch] at member
  rcases List.mem_cons.mp member with rfl | member
  · exact own
  · obtain ⟨n, inside, member⟩ := List.mem_flatMap.mp member
    exact List.all_eq_true.mp (each n inside) m member

theorem flat_leaf (l : Leaf) : (leaf l).flat := by
  apply List.all_eq_true.mpr
  intro m member
  obtain ⟨l', rfl⟩ := eq_leaf_of_mem_subnodes_leaf member
  rfl

theorem plainText_of_not_isLink {tag : Tag} {container : Container} (ns : List Node) (other : container.isLink = false) :
    (branch tag container ns).plainText := by
  cases container with
  | link form position => exact absurd other.symm Bool.false_ne_true
  | _ => rfl

/-- Whether nothing in a tree is a link or a definition. -/
def Linkless (n : Node) : Prop := ∀ m ∈ n.subnodes, m.link? = none ∧ m.definition? = none

theorem linkless_leaf (l : Leaf) : (leaf l).Linkless := by
  intro m member
  obtain ⟨l', rfl⟩ := eq_leaf_of_mem_subnodes_leaf member
  exact ⟨rfl, rfl⟩

theorem linkless_branch {tag : Tag} {container : Container} {ns : List Node} (other : container.isLink = false)
    (each : ∀ n ∈ ns, n.Linkless) : (branch tag container ns).Linkless := by
  intro m member
  rw [subnodes_branch] at member
  rcases List.mem_cons.mp member with rfl | member
  · cases container with
    | link form position => exact absurd other.symm Bool.false_ne_true
    | _ => exact ⟨rfl, rfl⟩
  · obtain ⟨n, inside, member⟩ := List.mem_flatMap.mp member
    exact each n inside m member

theorem plainText_of_linkless {tag : Tag} {container : Container} {ns : List Node} (each : ∀ n ∈ ns, n.Linkless) :
    (branch tag container ns).plainText := by
  cases container with
  | link form position =>
    apply List.all_eq_true.mpr
    intro m member
    obtain ⟨n, inside, member⟩ := List.mem_flatMap.mp member
    obtain ⟨link, definition⟩ := each n inside m member
    rw [link, definition]
    rfl
  | _ => rfl

theorem plainText_bare (n : Node) : n.bare.plainText = n.plainText := by
  cases n with
  | leaf l => rfl
  | definition tag label target => rfl
  | branch tag container ns =>
    rw [bare_branch]
    cases container with
    | link form position =>
      have below : (ns.map bare).flatMap subnodes = (ns.flatMap subnodes).map bare := by
        rw [List.flatMap_map, List.map_flatMap]
        exact List.flatMap_congr fun n _ => subnodes_bare n
      rw [Container.bare, plainText, plainText, below, List.all_map]
      refine congrArg (List.all _) (funext fun m => ?_)
      cases m with
      | leaf l => rfl
      | definition tag label target => rfl
      | branch tag container ms =>
        rw [Function.comp_apply, bare_branch]
        cases container <;> rfl
    | _ => rfl

theorem flat_bare (n : Node) : n.bare.flat = n.flat := by
  rw [flat, flat, subnodes_bare, List.all_map]
  exact congrArg (List.all _) (funext plainText_bare)

end Node

/-! ### Reading -/

namespace Inline

variable {lineStarts : List Int} {t : Text} {offsets : Array Nat}

theorem mem_gap {start stop : Nat} {n : Node} (inside : n ∈ gap t start stop) : ∃ text, n = .leaf (.text text) := by
  unfold gap at inside
  split at inside
  · exact ⟨_, List.mem_singleton.mp inside⟩
  · exact nomatch inside

theorem mem_fill {stop start : Nat} {made : List (Token × Node)} {n : Node} (inside : n ∈ fill t stop start made) :
    (∃ text, n = .leaf (.text text)) ∨ ∃ p ∈ made, n = p.2 := by
  induction made generalizing start with
  | nil => exact Or.inl (mem_gap inside)
  | cons p made ih =>
    rw [fill] at inside
    rcases List.mem_append.mp inside with inside | inside
    · exact Or.inl (mem_gap inside)
    · rcases List.mem_cons.mp inside with rfl | inside
      · exact Or.inr ⟨p, List.mem_cons_self, rfl⟩
      · rcases ih inside with text | ⟨q, among, same⟩
        · exact Or.inl text
        · exact Or.inr ⟨q, List.mem_cons_of_mem _ among, same⟩

theorem mem_nodes {fuel start stop : Nat} {ts : List Token} {n : Node}
    (inside : n ∈ nodes lineStarts t offsets (fuel + 1) ts start stop) : (∃ text, n = .leaf (.text text)) ∨
      ∃ p ∈ resolve ts, ∃ position, n = p.1.element.toNode position
        (nodes lineStarts t offsets fuel p.2 p.1.innerStart p.1.innerStop) := by
  rw [nodes] at inside
  rcases mem_fill inside with text | ⟨q, among, rfl⟩
  · exact Or.inl text
  · obtain ⟨p, resolved, rfl⟩ := List.mem_map.mp among
    exact Or.inr ⟨p, resolved, _, rfl⟩

/-- The node of an element is a leaf, an automatic link, or holds the given children; it is a link if the element
is one. -/
theorem toNode_cases (token : Token) (position : Option Position) (children : List Node) :
    (∃ l, token.element.toNode position children = .leaf l) ∨
    (∃ dest text, token.element.toNode position children = .fresh (.autoLink dest) [.leaf (.text text)]) ∨
    ∃ container, token.element.toNode position children = .fresh container children ∧
      container.isLink = token.isLink := by
  rw [Token.isLink]
  cases token.element with
  | leaf l => exact Or.inl ⟨l, rfl⟩
  | autoLink dest text => exact Or.inr (Or.inl ⟨dest, text, rfl⟩)
  | emphasis => exact Or.inr (Or.inr ⟨_, rfl, rfl⟩)
  | strong => exact Or.inr (Or.inr ⟨_, rfl, rfl⟩)
  | image target => exact Or.inr (Or.inr ⟨_, rfl, rfl⟩)
  | link form => exact Or.inr (Or.inr ⟨_, rfl, rfl⟩)

theorem linkless_text {n : Node} (dest text : Text) (same : n = .fresh (.autoLink dest) [.leaf (.text text)]) :
    n.Linkless := by
  subst same
  apply Node.linkless_branch rfl
  intro m inside
  rw [List.mem_singleton.mp inside]
  exact Node.linkless_leaf _

theorem nodes_linkless {fuel start stop : Nat} {ts : List Token} (plain : ∀ t ∈ ts, t.isLink = false) {n : Node}
    (inside : n ∈ nodes lineStarts t offsets fuel ts start stop) : n.Linkless := by
  induction fuel generalizing ts start stop n with
  | zero =>
    obtain ⟨text, rfl⟩ := mem_gap inside
    exact Node.linkless_leaf _
  | succ fuel ih =>
    rcases mem_nodes inside with ⟨text, rfl⟩ | ⟨p, resolved, position, rfl⟩
    · exact Node.linkless_leaf _
    · have subset := (inside_of_mem_resolve resolved).sublist.subset
      rcases toNode_cases p.1 position _ with ⟨l, same⟩ | ⟨dest, text, same⟩ | ⟨container, same, link⟩
      · rw [same]
        exact Node.linkless_leaf l
      · exact linkless_text dest text same
      · rw [same]
        apply Node.linkless_branch (link.trans (plain p.1 (subset List.mem_cons_self)))
        intro m among
        exact ih (fun u here => plain u (subset (List.mem_cons_of_mem _ here))) among

theorem nodes_flat {fuel start stop : Nat} {ts : List Token} (separate : Separate ts) {n : Node}
    (inside : n ∈ nodes lineStarts t offsets fuel ts start stop) : n.flat := by
  induction fuel generalizing ts start stop n with
  | zero =>
    obtain ⟨text, rfl⟩ := mem_gap inside
    exact Node.flat_leaf _
  | succ fuel ih =>
    rcases mem_nodes inside with ⟨text, rfl⟩ | ⟨p, resolved, position, rfl⟩
    · exact Node.flat_leaf _
    · have nested := inside_of_mem_resolve resolved
      have inner := separate.sublist ((List.sublist_cons_self p.1 p.2).trans nested.sublist)
      rcases toNode_cases p.1 position _ with ⟨l, same⟩ | ⟨dest, text, same⟩ | ⟨container, same, link⟩
      · rw [same]
        exact Node.flat_leaf l
      · rw [same]
        apply Node.flat_branch rfl
        intro m among
        rw [List.mem_singleton.mp among]
        exact Node.flat_leaf _
      · rw [same]
        refine Node.flat_branch ?_ fun m among => ih inner among
        cases isLink : p.1.isLink with
        | false => exact Node.plainText_of_not_isLink _ (link.trans isLink)
        | true =>
          apply Node.plainText_of_linkless
          intro m among
          exact nodes_linkless (fun u here => nested.not_isLink separate isLink here) among

theorem parse_flat (context : Context) (text : Located) {n : Node} (inside : n ∈ parse context text) : n.flat :=
  nodes_flat (separate_tokens _ _) inside

end Inline

namespace Block

mutual

theorem toNode_flat (context : Inline.Context) : ∀ b : Block, (toNode context b).flat
  | leaf l => Node.flat_leaf l
  | definition _ _ => rfl
  | paragraph text => Node.flat_branch rfl fun _ inside => Inline.parse_flat context text inside
  | heading _ _ text => Node.flat_branch rfl fun _ inside => Inline.parse_flat context text inside
  | quote children => Node.flat_branch rfl (toNodes_flat context children)
  | list _ items => Node.flat_branch rfl (toNodes_flat context items)
  | item children => Node.flat_branch rfl (toNodes_flat context children)

theorem toNodes_flat (context : Inline.Context) : ∀ bs : List Block, ∀ n ∈ toNodes context bs, n.flat
  | [] => fun _ inside => nomatch inside
  | b :: bs => List.forall_mem_cons.mpr ⟨toNode_flat context b, toNodes_flat context bs⟩

end

end Block

/-- Documents that are read are flat. -/
theorem Document.parseFrom_flat (next : Nat) (t : Text) : (Document.parseFrom next t).1.flat := by
  unfold Document.parseFrom
  generalize Block.readDocument (Document.sourceText t) = read
  obtain ⟨blocks, targets⟩ := read
  dsimp only
  rw [← Node.flat_bare, Node.number_bare, Node.flat_bare]
  exact Node.flat_branch rfl (Block.toNodes_flat _ blocks)

end MarkdownLinks
