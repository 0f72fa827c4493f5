import MarkdownLinks.Link.Forest
import MarkdownLinks.Link.Place
import MarkdownLinks.Proofs.Node.Sights

/-!
Rebuilding trees. Passes change a tree in two ways: `retag` gives its branches other tags and containers,
`rebuild` changes its lists of children. Each comes with what it does to the sights of the tree and with the
law by which two of a kind become one.
-/

namespace MarkdownLinks
namespace Node

theorem mapAllBranches_eq_map (f : Tag → Container → List Node → Node) (ns : List Node) :
    mapAllBranches f ns = ns.map (mapBranches f) := by
  induction ns with
  | nil => rfl
  | cons n ns ih => rw [mapAllBranches, ih, List.map_cons]

@[simp] theorem mapBranches_leaf (f : Tag → Container → List Node → Node) (l : Leaf) :
    mapBranches f (leaf l) = leaf l := rfl

@[simp] theorem mapBranches_definition (f : Tag → Container → List Node → Node) (tag : Tag) (label : Text)
    (target : Target) : mapBranches f (definition tag label target) = definition tag label target := rfl

@[simp] theorem mapBranches_branch (f : Tag → Container → List Node → Node) (tag : Tag) (container : Container)
    (ns : List Node) : mapBranches f (branch tag container ns) = f tag container (ns.map (mapBranches f)) := by
  rw [mapBranches, mapAllBranches_eq_map]

theorem mem_subnodes_of_child {tag : Tag} {container : Container} {ns : List Node} {n m : Node} (inside : n ∈ ns)
    (member : m ∈ n.subnodes) : m ∈ (branch tag container ns).subnodes := by
  rw [subnodes_branch]
  exact List.mem_cons_of_mem _ (List.mem_flatMap.mpr ⟨n, inside, member⟩)

theorem mem_subnodes_below {tag : Tag} {container : Container} {ns : List Node} {n m k : Node}
    (member : .branch tag container ns ∈ n.subnodes) (inside : m ∈ ns) (below : k ∈ m.subnodes) : k ∈ n.subnodes := by
  induction n with
  | leaf l =>
    obtain ⟨_, same⟩ := eq_leaf_of_mem_subnodes_leaf member
    exact nomatch same
  | definition t label target => simp at member
  | branch t c ms ih =>
    rw [subnodes_branch] at member
    rcases List.mem_cons.mp member with same | member
    · obtain ⟨rfl, rfl, rfl⟩ := Node.branch.inj same
      exact mem_subnodes_of_child inside below
    · obtain ⟨j, among, member⟩ := List.mem_flatMap.mp member
      exact mem_subnodes_of_child among (ih j among member)

theorem mapBranches_congr {f g : Tag → Container → List Node → Node} {n : Node}
    (same : ∀ t c ns, .branch t c ns ∈ n.subnodes →
      f t c (ns.map (mapBranches g)) = g t c (ns.map (mapBranches g))) : mapBranches f n = mapBranches g n := by
  induction n with
  | leaf l => rfl
  | definition tag label target => rfl
  | branch tag container ns ih =>
    have below : ns.map (mapBranches f) = ns.map (mapBranches g) :=
      List.map_congr_left fun n inside =>
        ih n inside fun t c ms member => same t c ms (mem_subnodes_of_child inside member)
    rw [mapBranches_branch, mapBranches_branch, below]
    exact same tag container ns (mem_subnodes_self _)

/-! ### Other tags and containers -/

/-- Gives branches other tags and containers. -/
def retag (φ : Tag → Container → Tag × Container) : Node → Node :=
  mapBranches fun t c ns => .branch (φ t c).1 (φ t c).2 ns

@[simp] theorem retag_leaf (φ : Tag → Container → Tag × Container) (l : Leaf) : retag φ (leaf l) = leaf l := rfl

@[simp] theorem retag_definition (φ : Tag → Container → Tag × Container) (tag : Tag) (label : Text)
    (target : Target) : retag φ (definition tag label target) = definition tag label target := rfl

@[simp] theorem retag_branch (φ : Tag → Container → Tag × Container) (tag : Tag) (container : Container)
    (ns : List Node) : retag φ (branch tag container ns) =
      branch (φ tag container).1 (φ tag container).2 (ns.map (retag φ)) := mapBranches_branch _ _ _ _

theorem retag_congr {φ ψ : Tag → Container → Tag × Container} {n : Node}
    (same : ∀ t c ns, .branch t c ns ∈ n.subnodes → φ t c = ψ t c) : retag φ n = retag ψ n :=
  mapBranches_congr fun t c ns member => by rw [same t c ns member]

theorem retag_retag (φ ψ : Tag → Container → Tag × Container) (n : Node) :
    retag ψ (retag φ n) = retag (fun t c => ψ (φ t c).1 (φ t c).2) n := by
  induction n with
  | leaf l => rfl
  | definition tag label target => rfl
  | branch tag container ns ih =>
    simp only [retag_branch, List.map_map]
    congr 1
    exact List.map_congr_left ih

theorem retag_eq_self {φ : Tag → Container → Tag × Container} {n : Node}
    (same : ∀ t c ns, .branch t c ns ∈ n.subnodes → φ t c = (t, c)) : retag φ n = n := by
  induction n with
  | leaf l => rfl
  | definition tag label target => rfl
  | branch tag container ns ih =>
    have below : ns.map (retag φ) = ns.map id := List.map_congr_left fun n inside =>
      ih n inside fun t c ms member => same t c ms (mem_subnodes_of_child inside member)
    rw [retag_branch, below, List.map_id, same tag container ns (mem_subnodes_self _)]

theorem subnodes_retag (φ : Tag → Container → Tag × Container) (n : Node) :
    (n.retag φ).subnodes = n.subnodes.map (retag φ) := by
  induction n with
  | leaf l =>
    refine (List.map_id _).symm.trans (List.map_congr_left fun m member => ?_)
    obtain ⟨_, rfl⟩ := eq_leaf_of_mem_subnodes_leaf member
    rfl
  | definition tag label target => rfl
  | branch tag container ns ih =>
    rw [retag_branch, subnodes_branch, subnodes_branch, List.map_cons, retag_branch, List.flatMap_map, List.map_flatMap]
    congr 1
    exact List.flatMap_congr ih

theorem of_mem_retag {φ : Tag → Container → Tag × Container} {n : Node} {t : Tag} {c : Container} {ms : List Node}
    (member : .branch t c ms ∈ (n.retag φ).subnodes) :
    ∃ u d ns, .branch u d ns ∈ n.subnodes ∧ φ u d = (t, c) ∧ ms = ns.map (retag φ) := by
  rw [subnodes_retag, List.mem_map] at member
  obtain ⟨m, old, same⟩ := member
  cases m with
  | leaf l => exact nomatch same
  | definition tag label target => exact nomatch same
  | branch u d ns =>
    obtain ⟨tag, container, children⟩ := Node.branch.inj ((retag_branch φ u d ns).symm.trans same)
    exact ⟨u, d, ns, old, Prod.ext tag container, children.symm⟩

end Node

def Parent.retag (φ : Tag → Container → Tag × Container) : Parent → Parent
  | .branch tag container => .branch (φ tag container).1 (φ tag container).2
  | p => p

def Sight.retag (φ : Tag → Container → Tag × Container) (s : Sight) : Sight :=
  match s.face with
  | .definition label target => ⟨s.tag, .definition label target, s.parent.retag φ⟩
  | .branch container => ⟨(φ s.tag container).1, .branch (φ s.tag container).2, s.parent.retag φ⟩

namespace Node

theorem sightsFrom_retag (φ : Tag → Container → Tag × Container) (parent : Parent) (n : Node) :
    (retag φ n).sightsFrom (parent.retag φ) = (n.sightsFrom parent).map (Sight.retag φ) := by
  induction n generalizing parent with
  | leaf l => rfl
  | definition tag label target => rfl
  | branch tag container ns ih =>
    rw [retag_branch, sightsFrom_branch, sightsFrom_branch, List.map_cons, List.flatMap_map, List.map_flatMap]
    congr 1
    exact List.flatMap_congr fun n inside => ih n inside (.branch tag container)

theorem sights_retag (φ : Tag → Container → Tag × Container) (n : Node) :
    (retag φ n).sights = n.sights.map (Sight.retag φ) := sightsFrom_retag φ .none n

theorem Distinct.retag {n : Node} (distinct : n.Distinct) {φ : Tag → Container → Tag × Container}
    (places : ∀ t c, (φ t c).1.place = t.place) : (n.retag φ).Distinct := by
  have same : (n.retag φ).tags.map Tag.place = n.tags.map Tag.place := by
    rw [tags, tags, sights_retag, List.map_map, List.map_map, List.map_map]
    apply List.map_congr_left
    intro s _
    obtain ⟨tag, face, parent⟩ := s
    cases face with
    | definition label target => rfl
    | branch container => exact places tag container
  rw [Distinct, same]
  exact distinct

/-! ### Other children -/

/-- Changes the lists of children from the bottom up. -/
def rebuild (κ : Tag → List Node → List Node) : Node → Node :=
  mapBranches fun t c ns => .branch t c (κ t ns)

@[simp] theorem rebuild_leaf (κ : Tag → List Node → List Node) (l : Leaf) : rebuild κ (leaf l) = leaf l := rfl

@[simp] theorem rebuild_definition (κ : Tag → List Node → List Node) (tag : Tag) (label : Text)
    (target : Target) : rebuild κ (definition tag label target) = definition tag label target := rfl

@[simp] theorem rebuild_branch (κ : Tag → List Node → List Node) (tag : Tag) (container : Container)
    (ns : List Node) : rebuild κ (branch tag container ns) = branch tag container (κ tag (ns.map (rebuild κ))) :=
  mapBranches_branch _ _ _ _

@[simp] theorem rebuild_tag? (κ : Tag → List Node → List Node) (n : Node) : (rebuild κ n).tag? = n.tag? := by
  cases n <;> simp [tag?]

@[simp] theorem rebuild_isBlankLine (κ : Tag → List Node → List Node) (n : Node) :
    (rebuild κ n).isBlankLine = n.isBlankLine := by
  cases n <;> simp [isBlankLine]

@[simp] theorem rebuild_isHeading (κ : Tag → List Node → List Node) (n : Node) :
    (rebuild κ n).isHeading = n.isHeading := by
  cases n with
  | leaf l => rfl
  | definition tag label target => rfl
  | branch tag container ns =>
    rw [rebuild_branch]
    cases container <;> rfl

theorem rebuild_rebuild {κ κ' : Tag → List Node → List Node}
    (natural : ∀ t ns, (κ t ns).map (rebuild κ') = κ t (ns.map (rebuild κ'))) (n : Node) :
    rebuild κ' (rebuild κ n) = rebuild (fun t ns => κ' t (κ t ns)) n := by
  induction n with
  | leaf l => rfl
  | definition tag label target => rfl
  | branch tag container ns ih =>
    simp only [rebuild_branch]
    rw [natural, List.map_map]
    congr 3
    exact List.map_congr_left ih

theorem rebuild_congr {κ κ' : Tag → List Node → List Node} {n : Node}
    (same : ∀ t c ns, .branch t c ns ∈ n.subnodes → ∀ ms, κ t ms = κ' t ms) : rebuild κ n = rebuild κ' n :=
  mapBranches_congr fun t c ns member => by rw [same t c ns member]

theorem rebuild_eq_self {κ : Tag → List Node → List Node} {n : Node}
    (same : ∀ t c ns, .branch t c ns ∈ n.subnodes → κ t ns = ns) : rebuild κ n = n := by
  induction n with
  | leaf l => rfl
  | definition tag label target => rfl
  | branch tag container ns ih =>
    have below : ns.map (rebuild κ) = ns.map id := List.map_congr_left fun n inside =>
      ih n inside fun t c ms member => same t c ms (mem_subnodes_of_child inside member)
    rw [rebuild_branch, below, List.map_id, same tag container ns (mem_subnodes_self _)]

/-- Other tags and containers go together with other children that are chosen alike. -/
theorem retag_rebuild {φ : Tag → Container → Tag × Container} {κ κ' : Tag → List Node → List Node} {n : Node}
    (natural : ∀ t c ns, .branch t c ns ∈ n.subnodes →
      ∀ ms, (κ t ms).map (retag φ) = κ' (φ t c).1 (ms.map (retag φ))) :
    (n.rebuild κ).retag φ = (n.retag φ).rebuild κ' := by
  induction n with
  | leaf l => rfl
  | definition tag label target => rfl
  | branch tag container ns ih =>
    have below : (ns.map (rebuild κ)).map (retag φ) = (ns.map (retag φ)).map (rebuild κ') := by
      rw [List.map_map, List.map_map]
      exact List.map_congr_left fun n inside =>
        ih n inside fun t c ms member => natural t c ms (mem_subnodes_of_child inside member)
    rw [rebuild_branch, retag_branch, natural tag container ns (mem_subnodes_self _), below, retag_branch, rebuild_branch]

/-- A branch of a rebuilt tree was there before, if the lists get no new branches. -/
theorem of_mem_rebuild {κ : Tag → List Node → List Node} (keeps : ∀ t ns, ∀ m ∈ κ t ns, m ∈ ns ∨ m.tag? = none)
    {n : Node} {t : Tag} {c : Container} {ms : List Node} (member : .branch t c ms ∈ (n.rebuild κ).subnodes) :
    ∃ ns, .branch t c ns ∈ n.subnodes ∧ ms = κ t (ns.map (rebuild κ)) := by
  induction n with
  | leaf l =>
    obtain ⟨_, same⟩ := eq_leaf_of_mem_subnodes_leaf member
    exact nomatch same
  | definition tag label target => simp at member
  | branch tag container ns ih =>
    rw [rebuild_branch, subnodes_branch] at member
    rcases List.mem_cons.mp member with same | member
    · obtain ⟨rfl, rfl, rfl⟩ := Node.branch.inj same
      exact ⟨ns, mem_subnodes_self _, rfl⟩
    · obtain ⟨m, inside, member⟩ := List.mem_flatMap.mp member
      rcases keeps tag _ m inside with old | leafy
      · obtain ⟨n, among, rfl⟩ := List.mem_map.mp old
        obtain ⟨ks, below, same⟩ := ih n among member
        exact ⟨ks, mem_subnodes_of_child among below, same⟩
      · -- A child without a tag has no branches below it.
        cases m with
        | leaf l =>
          obtain ⟨_, same⟩ := eq_leaf_of_mem_subnodes_leaf member
          exact nomatch same
        | definition tag label target => exact nomatch leafy
        | branch tag container ks => exact nomatch leafy

/-- Children without tags can come and go unseen. -/
theorem sightsFrom_rebuild {κ : Tag → List Node → List Node} {n : Node}
    (unseen : ∀ t c ns, .branch t c ns ∈ n.subnodes → ∀ parent,
      (κ t (ns.map (rebuild κ))).flatMap (sightsFrom parent) = (ns.map (rebuild κ)).flatMap (sightsFrom parent))
    (parent : Parent) : (rebuild κ n).sightsFrom parent = n.sightsFrom parent := by
  induction n generalizing parent with
  | leaf l => rfl
  | definition tag label target => rfl
  | branch tag container ns ih =>
    rw [rebuild_branch, sightsFrom_branch, sightsFrom_branch, unseen tag container ns (mem_subnodes_self _),
      List.flatMap_map]
    congr 1
    exact List.flatMap_congr fun n inside =>
      ih n inside (fun t c ms member => unseen t c ms (mem_subnodes_of_child inside member)) _

/-! ### Taking nodes out -/

def carries (tags : List Tag) (n : Node) : Bool := n.tag?.any (tags.contains ·)

/-- The tree without the nodes below its root that carry one of the tags. -/
def without (gone : List Tag) : Node → Node := rebuild fun _ ns => ns.filter (!carries gone ·)

@[simp] theorem carries_rebuild (gone : List Tag) (κ : Tag → List Node → List Node) (n : Node) :
    carries gone (rebuild κ n) = carries gone n := by
  rw [carries, rebuild_tag?, carries]

@[simp] theorem without_tag? (gone : List Tag) (n : Node) : (n.without gone).tag? = n.tag? := rebuild_tag? _ n

@[simp] theorem without_isBlankLine (gone : List Tag) (n : Node) :
    (n.without gone).isBlankLine = n.isBlankLine := rebuild_isBlankLine _ n

@[simp] theorem without_branch (gone : List Tag) (tag : Tag) (container : Container) (ns : List Node) :
    (branch tag container ns).without gone =
      branch tag container ((ns.filter (!carries gone ·)).map (without gone)) := by
  rw [without, rebuild_branch, List.filter_map]
  simp only [Function.comp_def, carries_rebuild]

theorem without_without (gone more : List Tag) (n : Node) :
    (n.without gone).without more = n.without (gone ++ more) := by
  unfold without
  rw [rebuild_rebuild]
  · congr 1
    funext _ ns
    rw [List.filter_filter]
    apply List.filter_congr
    intro m _
    unfold carries
    cases m.tag? <;> simp [Bool.and_comm]
  · intro _ ns
    rw [List.filter_map]
    simp only [Function.comp_def, carries_rebuild]

theorem without_nil (n : Node) : n.without [] = n :=
  rebuild_eq_self fun _ _ ns _ => List.filter_eq_self.mpr fun m _ => by
    unfold carries
    cases m.tag? <;> rfl

theorem flatMap_filter {α β : Type} (p : α → Bool) (f : α → List β) (as : List α) :
    (as.filter p).flatMap f = as.flatMap fun a => if p a then f a else [] := by
  induction as with
  | nil => rfl
  | cons a as ih => cases keep : p a <;> simp [keep, ih]

theorem child_sights_without {gone : List Tag} {parent : Parent} {n : Node}
    (definitions : ∀ s ∈ n.sightsFrom parent, s.tag ∈ gone → s.isDefinition) :
    (if carries gone n then [] else (n.without gone).sightsFrom parent) =
      (n.sightsFrom parent).filter (·.tag ∉ gone) := by
  induction n generalizing parent with
  | leaf l => simp [without]
  | definition tag label target => by_cases member : tag ∈ gone <;> simp [carries, tag?, without, member]
  | branch tag container ns ih =>
    rw [sightsFrom_branch] at definitions
    have own : tag ∉ gone := fun member => by simpa [Sight.isDefinition] using definitions _ List.mem_cons_self member
    rw [if_neg (by simpa [carries, tag?] using own), without_branch, sightsFrom_branch, sightsFrom_branch,
      List.filter_cons_of_pos (by simpa using own), List.flatMap_map, flatMap_filter, List.filter_flatMap]
    congr 1
    apply List.flatMap_congr
    intro n inside
    rw [← ih n inside fun s seen =>
      definitions s (List.mem_cons_of_mem _ (List.mem_flatMap.mpr ⟨n, inside, seen⟩))]
    cases carries gone n <;> rfl

/-- Taking out definitions leaves the other sights. -/
theorem sightsFrom_without {gone : List Tag} {parent : Parent} {n : Node}
    (definitions : ∀ s ∈ n.sightsFrom parent, s.tag ∈ gone → s.isDefinition) (stays : carries gone n = false) :
    (n.without gone).sightsFrom parent = (n.sightsFrom parent).filter (·.tag ∉ gone) := by
  rw [← child_sights_without definitions, if_neg (by rw [stays]; exact Bool.false_ne_true)]

end Node
end MarkdownLinks
