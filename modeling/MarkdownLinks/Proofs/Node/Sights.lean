import Mathlib.Data.List.Nodup
import MarkdownLinks.Link.Index

/-!
What a walk shows of a tree. A sight is a node with a tag as a record sees it: the tag, what the node is, and
its parent, without what lies below. Trees whose sights have different places are the ones that records can
find their way in; `number` makes such trees.
-/

namespace MarkdownLinks

namespace Node

/-- Induction with one hypothesis for all children of a branch. -/
@[elab_as_elim, induction_eliminator]
theorem induct {motive : Node → Prop} (leaf : ∀ l, motive (.leaf l))
    (definition : ∀ tag label target, motive (.definition tag label target))
    (branch : ∀ tag container children, (∀ n ∈ children, motive n) → motive (.branch tag container children))
    (n : Node) : motive n :=
  @Node.rec motive (fun ns => ∀ n ∈ ns, motive n) leaf definition branch (fun _ h => nomatch h)
    (fun _ _ head tail _ h => by
      rcases List.mem_cons.mp h with rfl | h
      · exact head
      · exact tail _ h) n

/-- The nodes that a walk visits. -/
def subnodes (n : Node) : List Node := n.walk.map (·.node)

def isDefinition : Node → Bool
  | definition _ _ _ => true
  | _ => false

theorem walkAll_eq_flatMap (parent : Option Node) (ns : List Node) :
    walkAll parent ns = ns.flatMap (walkFrom parent) := by
  induction ns with
  | nil => rfl
  | cons n ns ih => rw [walkAll, ih, List.flatMap_cons]

theorem walkFrom_nodes (parent : Option Node) (n : Node) : (walkFrom parent n).map (·.node) = n.subnodes := by
  cases n with
  | leaf l => simp [subnodes, walk, walkFrom, Function.comp_def]
  | definition tag label target => rfl
  | branch tag container ns => simp [subnodes, walk, walkFrom]

theorem walkAll_nodes (parent : Option Node) (ns : List Node) :
    (walkAll parent ns).map (·.node) = ns.flatMap subnodes := by
  rw [walkAll_eq_flatMap, List.map_flatMap]
  exact List.flatMap_congr fun n _ => walkFrom_nodes parent n

@[simp] theorem subnodes_definition (tag : Tag) (label : Text) (target : Target) :
    (definition tag label target).subnodes = [definition tag label target] := rfl

@[simp] theorem subnodes_branch (tag : Tag) (container : Container) (ns : List Node) :
    (branch tag container ns).subnodes = branch tag container ns :: ns.flatMap subnodes := by
  simp [subnodes, walk, walkFrom, walkAll_nodes]

theorem mem_subnodes_self (n : Node) : n ∈ n.subnodes := by
  cases n <;> simp [subnodes, walk, walkFrom]

theorem eq_leaf_of_mem_subnodes_leaf {l : Leaf} {m : Node} (h : m ∈ (leaf l).subnodes) : ∃ l', m = leaf l' := by
  cases l <;> simp [subnodes, walk, walkFrom, children, Leaf.codeText?] at h <;>
    first
      | exact ⟨_, h⟩
      | (rcases h with h | h <;> exact ⟨_, h⟩)

end Node

/-- What a node with a tag is, apart from its children. -/
inductive Face
  | definition (label : Text) (target : Target)
  | branch (container : Container)
  deriving DecidableEq

/-- A node with a tag as a walk shows it. -/
structure Sight where
  tag : Tag
  face : Face
  parent : Parent
  deriving DecidableEq

def Sight.isDefinition (s : Sight) : Bool :=
  match s.face with
  | .definition _ _ => true
  | .branch _ => false

/-- What a record takes to be its parent when it is reached through this node. -/
def Parent.ofNode? : Option Node → Parent
  | some (.branch tag container _) => .branch tag container
  | some _ => .leaf
  | Option.none => .none

theorem Visit.parentOf_eq (v : Visit) : v.parentOf = Parent.ofNode? v.parent := by
  unfold Visit.parentOf Parent.ofNode?
  rcases v.parent with _ | (_ | _ | _) <;> rfl

def Visit.sight? (v : Visit) : Option Sight :=
  match v.node with
  | .leaf _ => none
  | .definition tag label target => some ⟨tag, .definition label target, v.parentOf⟩
  | .branch tag container _ => some ⟨tag, .branch container, v.parentOf⟩

namespace Node

mutual

/-- The sights of a tree that hangs below `parent`. -/
def sightsFrom (parent : Parent) : Node → List Sight
  | leaf _ => []
  | definition tag label target => [⟨tag, .definition label target, parent⟩]
  | branch tag container children =>
    ⟨tag, .branch container, parent⟩ :: sightsAll (.branch tag container) children

def sightsAll (parent : Parent) : List Node → List Sight
  | [] => []
  | n :: ns => sightsFrom parent n ++ sightsAll parent ns

end

/-- The sights of a tree. -/
def sights (n : Node) : List Sight := n.sightsFrom .none

theorem sightsAll_eq_flatMap (parent : Parent) (ns : List Node) :
    sightsAll parent ns = ns.flatMap (sightsFrom parent) := by
  induction ns with
  | nil => rfl
  | cons n ns ih => rw [sightsAll, ih, List.flatMap_cons]

@[simp] theorem sightsFrom_leaf (parent : Parent) (l : Leaf) : sightsFrom parent (leaf l) = [] := rfl

@[simp] theorem sightsFrom_definition (parent : Parent) (tag : Tag) (label : Text) (target : Target) :
    sightsFrom parent (definition tag label target) = [⟨tag, .definition label target, parent⟩] := rfl

@[simp] theorem sightsFrom_branch (parent : Parent) (tag : Tag) (container : Container) (ns : List Node) :
    sightsFrom parent (branch tag container ns) =
      ⟨tag, .branch container, parent⟩ :: ns.flatMap (sightsFrom (.branch tag container)) := by
  rw [sightsFrom, sightsAll_eq_flatMap]

@[simp] theorem sights_branch (tag : Tag) (container : Container) (ns : List Node) :
    (branch tag container ns).sights =
      ⟨tag, .branch container, .none⟩ :: ns.flatMap (sightsFrom (.branch tag container)) :=
  sightsFrom_branch .none tag container ns

theorem sightsFrom_eq_nil_of_leaf {parent : Parent} {n : Node} (leafy : n.tag? = none) :
    n.sightsFrom parent = [] := by
  cases n with
  | leaf l => rfl
  | definition => simp [tag?] at leafy
  | branch => simp [tag?] at leafy

/-- The sights of a tree are what its walk shows. -/
theorem walkFrom_sights (parent : Option Node) (n : Node) :
    (walkFrom parent n).filterMap Visit.sight? = n.sightsFrom (Parent.ofNode? parent) := by
  induction n generalizing parent with
  | leaf l =>
    rw [walkFrom, sightsFrom_leaf, List.filterMap_eq_nil_iff]
    intro v member
    rcases List.mem_cons.mp member with rfl | member
    · rfl
    · obtain ⟨child, member, rfl⟩ := List.mem_map.mp member
      cases l <;> simp [children, Leaf.codeText?] at member <;> (subst member; rfl)
  | definition tag label target => simp [walkFrom, Visit.sight?, Visit.parentOf_eq]
  | branch tag container ns ih =>
    rw [walkFrom, List.filterMap_cons, sightsFrom_branch, walkAll_eq_flatMap, List.filterMap_flatMap]
    simp only [Visit.sight?, Visit.parentOf_eq]
    congr 1
    exact List.flatMap_congr fun n member => ih n member _

theorem walk_sights (n : Node) : n.walk.filterMap Visit.sight? = n.sights := walkFrom_sights none n

def tags (n : Node) : List Tag := n.sights.map (·.tag)

theorem sightsFrom_tags (parent : Parent) (n : Node) : (n.sightsFrom parent).map (·.tag) = n.tags := by
  cases n with
  | leaf l => rfl
  | definition tag label target => rfl
  | branch tag container ns => simp [tags, sights]

@[simp] theorem tags_leaf (l : Leaf) : (leaf l).tags = [] := rfl

@[simp] theorem tags_definition (tag : Tag) (label : Text) (target : Target) :
    (definition tag label target).tags = [tag] := rfl

@[simp] theorem tags_branch (tag : Tag) (container : Container) (ns : List Node) :
    (branch tag container ns).tags = tag :: ns.flatMap tags := by
  rw [tags, sights, sightsFrom_branch, List.map_cons, List.map_flatMap]
  congr 1
  exact List.flatMap_congr fun n _ => sightsFrom_tags _ n

/-- What can be told from sights, nodes show in the same order. -/
theorem subnodes_filterMap {β : Type} {f : Node → Option β} {g : Sight → Option β} (leaves : ∀ l, f (leaf l) = none)
    (definitions : ∀ tag label target parent, f (definition tag label target) =
      g ⟨tag, .definition label target, parent⟩)
    (branches : ∀ tag container ns parent, f (branch tag container ns) = g ⟨tag, .branch container, parent⟩)
    (parent : Parent) (n : Node) : n.subnodes.filterMap f = (n.sightsFrom parent).filterMap g := by
  induction n generalizing parent with
  | leaf l =>
    rw [sightsFrom_leaf, List.filterMap_nil, List.filterMap_eq_nil_iff]
    intro m member
    obtain ⟨l', rfl⟩ := eq_leaf_of_mem_subnodes_leaf member
    exact leaves l'
  | definition tag label target =>
    rw [subnodes_definition, sightsFrom_definition, List.filterMap_cons, List.filterMap_cons,
      definitions tag label target parent]
    rfl
  | branch tag container ns ih =>
    rw [subnodes_branch, sightsFrom_branch, List.filterMap_cons, List.filterMap_cons, branches tag container ns parent,
      List.filterMap_flatMap, List.filterMap_flatMap, List.flatMap_congr fun n inside => ih n inside _]

theorem subnodes_tags (n : Node) : n.subnodes.filterMap tag? = n.tags := by
  rw [subnodes_filterMap (g := fun s => some s.tag) (fun _ => rfl) (fun _ _ _ _ => rfl) (fun _ _ _ _ => rfl) .none,
    List.filterMap_eq_map']
  rfl

theorem tag_mem_of_mem_subnodes {n m : Node} {tag : Tag} (member : m ∈ n.subnodes) (tagged : m.tag? = some tag) :
    tag ∈ n.tags := by
  rw [← subnodes_tags]
  exact List.mem_filterMap.mpr ⟨m, member, tagged⟩

theorem face_of_mem_sightsFrom {parent : Parent} {n : Node} {s : Sight} (member : s ∈ n.sightsFrom parent) :
    (∃ label target, s.face = .definition label target ∧ .definition s.tag label target ∈ n.subnodes) ∨
      ∃ container ns, s.face = .branch container ∧ .branch s.tag container ns ∈ n.subnodes := by
  induction n generalizing parent with
  | leaf l => simp at member
  | definition tag label target =>
    obtain rfl := List.mem_singleton.mp member
    exact Or.inl ⟨label, target, rfl, by simp⟩
  | branch tag container ns ih =>
    rw [sightsFrom_branch] at member
    rcases List.mem_cons.mp member with rfl | member
    · exact Or.inr ⟨container, ns, rfl, by simp⟩
    · obtain ⟨n, inside, member⟩ := List.mem_flatMap.mp member
      have lift : ∀ m, m ∈ n.subnodes → m ∈ (branch tag container ns).subnodes := by
        intro m below
        rw [subnodes_branch]
        exact List.mem_cons_of_mem _ (List.mem_flatMap.mpr ⟨n, inside, below⟩)
      rcases ih n inside member with ⟨label, target, same, below⟩ | ⟨c, ms, same, below⟩
      · exact Or.inl ⟨label, target, same, lift _ below⟩
      · exact Or.inr ⟨c, ms, same, lift _ below⟩

theorem mem_subnodes_definition_iff {n : Node} {tag : Tag} {label : Text} {target : Target} :
    .definition tag label target ∈ n.subnodes ↔ ∃ parent, ⟨tag, .definition label target, parent⟩ ∈ n.sights := by
  constructor
  · intro member
    have shown : (tag, label, target) ∈ n.sights.filterMap fun s =>
        match s.face with
        | .definition l u => some (s.tag, l, u)
        | .branch _ => none := by
      rw [sights, ← subnodes_filterMap
        (f := fun m => match m with
          | .definition t l u => some (t, l, u)
          | _ => none)
        (fun _ => rfl) (fun _ _ _ _ => rfl) (fun _ _ _ _ => rfl)]
      exact List.mem_filterMap.mpr ⟨_, member, rfl⟩
    obtain ⟨⟨t, face, parent⟩, seen, same⟩ := List.mem_filterMap.mp shown
    cases face with
    | definition l u =>
      cases same
      exact ⟨parent, seen⟩
    | branch container => exact nomatch same
  · rintro ⟨parent, seen⟩
    rcases face_of_mem_sightsFrom seen with ⟨_, _, face, member⟩ | ⟨_, _, face, -⟩
    · obtain ⟨rfl, rfl⟩ := Face.definition.inj face
      exact member
    · exact nomatch face

/-- A sight is that of the root, or its parent is a branch of the tree that has the node among its children. -/
theorem parent_of_mem_sightsFrom {parent : Parent} {n : Node} {s : Sight} (member : s ∈ n.sightsFrom parent) :
    (n.tag? = some s.tag ∧ s.parent = parent) ∨ ∃ tag container ns, s.parent = .branch tag container ∧
      .branch tag container ns ∈ n.subnodes ∧ ∃ m ∈ ns, m.tag? = some s.tag := by
  induction n generalizing parent with
  | leaf l => simp at member
  | definition tag label target =>
    obtain rfl := List.mem_singleton.mp member
    exact Or.inl ⟨rfl, rfl⟩
  | branch tag container ns ih =>
    rw [sightsFrom_branch] at member
    rcases List.mem_cons.mp member with rfl | member
    · exact Or.inl ⟨rfl, rfl⟩
    · obtain ⟨n, inside, member⟩ := List.mem_flatMap.mp member
      right
      rcases ih n inside member with ⟨tagged, same⟩ | ⟨t, c, ms, same, below, child⟩
      · exact ⟨tag, container, ns, same, mem_subnodes_self _, n, inside, tagged⟩
      · refine ⟨t, c, ms, same, ?_, child⟩
        rw [subnodes_branch]
        exact List.mem_cons_of_mem _ (List.mem_flatMap.mpr ⟨n, inside, below⟩)

theorem sight_of_tag (parent : Parent) {n : Node} {tag : Tag} (tagged : n.tag? = some tag) :
    ∃ s ∈ n.sightsFrom parent, s.tag = tag ∧ s.parent = parent := by
  cases n with
  | leaf l => simp [tag?] at tagged
  | definition t label target => exact ⟨_, List.mem_singleton_self _, Option.some.inj tagged, rfl⟩
  | branch t container ns =>
    rw [sightsFrom_branch]
    exact ⟨_, List.mem_cons_self, Option.some.inj tagged, rfl⟩

theorem sight_of_child (parent : Parent) {n m : Node} {tag child : Tag} {container : Container} {ns : List Node}
    (member : .branch tag container ns ∈ n.subnodes) (inside : m ∈ ns) (tagged : m.tag? = some child) :
    ∃ s ∈ n.sightsFrom parent, s.tag = child ∧ s.parent = .branch tag container := by
  induction n generalizing parent with
  | leaf l =>
    obtain ⟨_, same⟩ := eq_leaf_of_mem_subnodes_leaf member
    exact nomatch same
  | definition t label target => simp at member
  | branch t c ms ih =>
    rw [sightsFrom_branch]
    rw [subnodes_branch] at member
    rcases List.mem_cons.mp member with same | member
    · obtain ⟨rfl, rfl, rfl⟩ := Node.branch.inj same
      obtain ⟨s, seen, own, below⟩ := sight_of_tag (.branch tag container) tagged
      exact ⟨s, List.mem_cons_of_mem _ (List.mem_flatMap.mpr ⟨m, inside, seen⟩), own, below⟩
    · obtain ⟨k, among, member⟩ := List.mem_flatMap.mp member
      obtain ⟨s, seen, own, below⟩ := ih k among (.branch t c) member
      exact ⟨s, List.mem_cons_of_mem _ (List.mem_flatMap.mpr ⟨k, among, seen⟩), own, below⟩

/-! ### Trees with different places -/

/-- No two nodes of the tree share a place. -/
def Distinct (n : Node) : Prop := (n.tags.map Tag.place).Nodup

theorem Distinct.sights_inj {n : Node} (distinct : n.Distinct) {s s' : Sight} (seen : s ∈ n.sights)
    (seen' : s' ∈ n.sights) (place : s.tag.place = s'.tag.place) : s = s' := by
  have unique : (n.sights.map fun s => s.tag.place).Nodup := by
    simpa [Distinct, tags, Function.comp_def] using distinct
  exact List.inj_on_of_nodup_map unique seen seen' place

theorem Distinct.child {tag : Tag} {container : Container} {ns : List Node}
    (distinct : (branch tag container ns).Distinct) {n : Node} (inside : n ∈ ns) : n.Distinct := by
  unfold Distinct at *
  rw [tags_branch, List.map_cons, List.map_flatMap] at distinct
  exact (List.nodup_flatMap.mp (List.nodup_cons.mp distinct).2).1 n inside

theorem Distinct.subnode {n m : Node} (distinct : n.Distinct) (member : m ∈ n.subnodes) (branch : m.tag?.isSome) :
    m.Distinct := by
  induction n with
  | leaf l =>
    obtain ⟨_, rfl⟩ := eq_leaf_of_mem_subnodes_leaf member
    exact absurd branch Bool.false_ne_true
  | definition tag label target =>
    obtain rfl := List.mem_singleton.mp member
    exact distinct
  | branch tag container ns ih =>
    rw [subnodes_branch] at member
    rcases List.mem_cons.mp member with rfl | member
    · exact distinct
    · obtain ⟨n, inside, member⟩ := List.mem_flatMap.mp member
      exact ih n inside (distinct.child inside) member

theorem Distinct.not_below {n : Node} (distinct : n.Distinct) {t : Tag} {c c' : Container} {ns ms : List Node}
    (member : .branch t c ns ∈ n.subnodes) {m : Node} (inside : m ∈ ns) : .branch t c' ms ∉ m.subnodes := by
  intro below
  have own := distinct.subnode member rfl
  rw [Distinct, tags_branch, List.map_cons, List.nodup_cons] at own
  exact own.1 (List.mem_map_of_mem (List.mem_flatMap.mpr ⟨m, inside, tag_mem_of_mem_subnodes below rfl⟩))

theorem Distinct.subnode_inj {n : Node} (distinct : n.Distinct) {m m' : Node} {t t' : Tag}
    (member : m ∈ n.subnodes) (member' : m' ∈ n.subnodes) (tagged : m.tag? = some t) (tagged' : m'.tag? = some t')
    (place : t.place = t'.place) : m = m' := by
  have unique : ((n.subnodes.filter (·.tag?.isSome)).map fun m => m.tag?.map Tag.place).Nodup := by
    have same : (n.subnodes.filter (·.tag?.isSome)).map (fun m => m.tag?.map Tag.place) =
        (n.tags.map Tag.place).map some := by
      rw [← subnodes_tags, List.map_filterMap, List.map_filterMap]
      induction n.subnodes with
      | nil => rfl
      | cons m ms ih => cases tagged : m.tag? <;> simp [tagged, ih]
    rw [same]
    exact distinct.map fun _ _ same => Option.some.inj same
  refine List.inj_on_of_nodup_map unique (List.mem_filter.mpr ⟨member, ?_⟩) (List.mem_filter.mpr ⟨member', ?_⟩) ?_
  · rw [tagged]
    rfl
  · rw [tagged']
    rfl
  · rw [tagged, tagged', Option.map_some, Option.map_some, place]

theorem Distinct.branch_inj {n : Node} (distinct : n.Distinct) {t t' : Tag} {c c' : Container} {ns ns' : List Node}
    (member : .branch t c ns ∈ n.subnodes) (member' : .branch t' c' ns' ∈ n.subnodes)
    (place : t.place = t'.place) : Node.branch t c ns = .branch t' c' ns' :=
  distinct.subnode_inj member member' rfl rfl place

theorem Distinct.ne_root {n : Node} (distinct : n.Distinct) {s : Sight} (seen : s ∈ n.sights)
    (below : s.parent ≠ .none) : n.tag? ≠ some s.tag := by
  intro root
  obtain ⟨s', seen', own, parent⟩ := sight_of_tag .none root
  rw [← distinct.sights_inj seen' seen (by rw [own])] at below
  exact below parent

theorem Distinct.not_definition {n : Node} (distinct : n.Distinct) {s : Sight} (seen : s ∈ n.sights)
    {container : Container} (face : s.face = .branch container) (label : Text) (target : Target) :
    .definition s.tag label target ∉ n.subnodes := by
  intro member
  rcases face_of_mem_sightsFrom seen with ⟨_, _, other, -⟩ | ⟨_, _, -, member'⟩
  · exact nomatch face.symm.trans other
  · exact nomatch distinct.subnode_inj member member' rfl rfl rfl

/-! ### Numbering -/

/-- The tags of nodes that have not been replaced yet, in the places from `next` on. -/
def freshTags (next count : Nat) : List Tag := (List.range' next count).map (⟨·, 0⟩)

theorem freshTags_append (next m n : Nat) :
    freshTags next m ++ freshTags (next + m) n = freshTags next (m + n) := by
  simp [freshTags, ← List.map_append, List.range'_append_1]

def Numbers (next : Nat) (n : Node) : Prop :=
  ∃ count, (number next n).1.tags = freshTags next count ∧ (number next n).2 = next + count

theorem numberAll_tags {ns : List Node} (numbers : ∀ n ∈ ns, ∀ next, Numbers next n) (next : Nat) :
    ∃ count, (numberAll next ns).1.flatMap tags = freshTags next count ∧ (numberAll next ns).2 = next + count := by
  induction ns generalizing next with
  | nil => exact ⟨0, rfl, rfl⟩
  | cons n ns ih =>
    obtain ⟨i, first, free⟩ := numbers n List.mem_cons_self next
    obtain ⟨j, later, last⟩ := ih (fun m member => numbers m (List.mem_cons_of_mem _ member)) (next + i)
    refine ⟨i + j, ?_, ?_⟩
    · rw [← freshTags_append, ← first, ← later, ← free]
      rfl
    · change (numberAll (number next n).2 ns).2 = next + (i + j)
      rw [free, last, Nat.add_assoc]

theorem number_tags (next : Nat) (n : Node) : Numbers next n := by
  induction n generalizing next with
  | leaf l => exact ⟨0, rfl, rfl⟩
  | definition tag label target => exact ⟨1, rfl, rfl⟩
  | branch tag container ns ih =>
    obtain ⟨count, below, free⟩ := numberAll_tags ih (next + 1)
    refine ⟨1 + count, ?_, ?_⟩
    · change (branch ⟨next, 0⟩ container (numberAll (next + 1) ns).1).tags = freshTags next (1 + count)
      rw [← freshTags_append, tags_branch, below]
      rfl
    · change (numberAll (next + 1) ns).2 = next + (1 + count)
      rw [free, Nat.add_assoc]

theorem distinct_number (next : Nat) (n : Node) : (number next n).1.Distinct := by
  obtain ⟨count, same, -⟩ := number_tags next n
  rw [Distinct, same, freshTags, List.map_map]
  simpa [Function.comp_def] using @List.nodup_range' next count 1

theorem place_lt_of_mem_number {next : Nat} {n : Node} {tag : Tag} (member : tag ∈ (number next n).1.tags) :
    tag.place < (number next n).2 := by
  obtain ⟨count, same, free⟩ := number_tags next n
  rw [same, freshTags] at member
  obtain ⟨place, inRange, rfl⟩ := List.mem_map.mp member
  rw [free]
  exact (List.mem_range'_1.mp inRange).2

end Node
end MarkdownLinks
