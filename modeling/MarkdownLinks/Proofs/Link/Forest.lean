import MarkdownLinks.Proofs.Node.Rebuild

/-!
Finding and changing nodes of a forest by their tags. In a forest that is one document with different places a
tag leads to the one node of its place, so a change of the list of children that holds a node is the same change
of all lists of children.
-/

namespace MarkdownLinks

namespace Node

theorem findAmong?_eq_findSome? (p : Tag → Bool) (ns : List Node) :
    findAmong? p ns = ns.findSome? (findBranch? p) := by
  induction ns with
  | nil => rfl
  | cons n ns ih =>
    rw [findAmong?, List.findSome?_cons, ih]
    cases findBranch? p n <;> rfl

@[simp] theorem findBranch?_branch (p : Tag → Bool) (tag : Tag) (container : Container) (ns : List Node) :
    findBranch? p (branch tag container ns) =
      if p tag then some (branch tag container ns) else ns.findSome? (findBranch? p) := by
  rw [findBranch?, findAmong?_eq_findSome?]

theorem of_findBranch?_eq_some {p : Tag → Bool} {n m : Node} (found : n.findBranch? p = some m) :
    ∃ t c ns, m = .branch t c ns ∧ p t ∧ .branch t c ns ∈ n.subnodes := by
  induction n with
  | leaf l => exact nomatch found
  | definition tag label target => exact nomatch found
  | branch tag container ns ih =>
    rw [findBranch?_branch] at found
    split at found
    · rename_i asked
      obtain rfl := Option.some.inj found
      exact ⟨tag, container, ns, rfl, asked, mem_subnodes_self _⟩
    · obtain ⟨n, inside, found⟩ := List.exists_of_findSome?_eq_some found
      obtain ⟨t, c, ms, rfl, asked, member⟩ := ih n inside found
      exact ⟨t, c, ms, rfl, asked, mem_subnodes_of_child inside member⟩

theorem findBranch?_isSome {p : Tag → Bool} {n : Node} {t : Tag} {c : Container} {ns : List Node}
    (member : .branch t c ns ∈ n.subnodes) (asked : p t) : (n.findBranch? p).isSome := by
  induction n with
  | leaf l =>
    obtain ⟨_, same⟩ := eq_leaf_of_mem_subnodes_leaf member
    exact nomatch same
  | definition tag label target => simp at member
  | branch tag container ms ih =>
    rw [findBranch?_branch]
    split
    · rfl
    · rename_i other
      rw [subnodes_branch] at member
      rcases List.mem_cons.mp member with same | member
      · obtain ⟨rfl, -, -⟩ := Node.branch.inj same
        exact absurd asked other
      · obtain ⟨n, inside, member⟩ := List.mem_flatMap.mp member
        exact List.findSome?_isSome_iff.mpr ⟨n, inside, ih n inside member⟩

theorem Distinct.findBranch? {p : Tag → Bool} {n : Node} (distinct : n.Distinct) {t : Tag} {c : Container}
    {ns : List Node} (member : .branch t c ns ∈ n.subnodes) (asked : p t)
    (only : ∀ t', p t' → t'.place = t.place) : n.findBranch? p = some (.branch t c ns) := by
  obtain ⟨m, found⟩ := Option.isSome_iff_exists.mp (findBranch?_isSome member asked)
  obtain ⟨t', c', ns', rfl, asked', member'⟩ := of_findBranch?_eq_some found
  rw [found, distinct.branch_inj member' member (only t' asked')]

end Node

namespace Forest

/-- A forest of one document, in which a place stands for one node. -/
structure Sole (f : Forest) : Prop where
  alone : f.others = []
  distinct : f.document.Distinct

variable {f : Forest}

theorem branch?_of_mem (distinct : f.document.Distinct) {tag : Tag} {c : Container} {ns : List Node}
    (member : .branch tag c ns ∈ f.document.subnodes) : f.branch? tag = some (.branch tag c ns) := by
  have found : f.document.findBranch? (fun t => t = tag) = some (.branch tag c ns) :=
    distinct.findBranch? member (by simp) fun t same => by simpa using congrArg Tag.place (by simpa using same)
  rw [branch?, trees, Node.findAmong?_eq_findSome?, List.findSome?_cons, found]

/-- A branch of the document gets other children in its place. -/
theorem Sole.setChildren (sole : f.Sole) {tag : Tag} {c : Container} {ns : List Node}
    (member : .branch tag c ns ∈ f.document.subnodes) (container : Container) (children : List Node) :
    f.setChildren tag container children =
      { f with document := f.document.rebuild fun t ms => if t = tag then children else ms } := by
  have changed : f.document.mapBranches (fun t container ms =>
      if t = tag then .branch tag container children else .branch t container ms) =
      f.document.rebuild fun t ms => if t = tag then children else ms := by
    apply Node.mapBranches_congr
    intro t container ms _
    by_cases own : t = tag <;> simp [own]
  rw [Forest.setChildren, branch?_of_mem sole.distinct member, Option.isSome_some, if_pos rfl, mapAt]
  simp only [sole.alone, List.map_nil, changed]

theorem Sole.holder? (sole : f.Sole) {tag t : Tag} {c : Container} {ns : List Node}
    (member : .branch t c ns ∈ f.document.subnodes) (place : t.place = tag.place) :
    f.holder? tag = some (.branch t c ns) := by
  have byPlace : f.document.findBranch? (fun u => u.place = tag.place) = some (.branch t c ns) :=
    sole.distinct.findBranch? member (by simpa using place) fun u same => by
      rw [place]
      simpa using same
  rw [Forest.holder?, branch?, trees, sole.alone, Node.findAmong?_eq_findSome?, Node.findAmong?_eq_findSome?]
  simp only [List.findSome?_cons, List.findSome?_nil, byPlace]
  cases found : f.document.findBranch? (fun u => u = tag) with
  | none => rfl
  | some m =>
    obtain ⟨t', c', ns', rfl, same, member'⟩ := Node.of_findBranch?_eq_some found
    have own : t' = tag := by simpa using same
    rw [sole.distinct.branch_inj member' member (by rw [own, place])]
    rfl

theorem Sole.childrenOf (sole : f.Sole) {tag t : Tag} {c : Container} {ns : List Node}
    (member : .branch t c ns ∈ f.document.subnodes) (place : t.place = tag.place) : f.childrenOf tag = ns := by
  rw [Forest.childrenOf, sole.holder? member place]
  rfl

theorem of_holder? (alone : f.others = []) {tag : Tag} {n : Node} (found : f.holder? tag = some n) :
    ∃ t c ns, n = .branch t c ns ∧ t.place = tag.place ∧ .branch t c ns ∈ f.document.subnodes := by
  rw [Forest.holder?, branch?, trees, alone, Node.findAmong?_eq_findSome?, Node.findAmong?_eq_findSome?] at found
  simp only [List.findSome?_cons, List.findSome?_nil] at found
  cases exactly : f.document.findBranch? (fun t => t = tag) with
  | some m =>
    rw [exactly] at found
    obtain rfl := Option.some.inj found
    obtain ⟨t, c, ns, same, asked, member⟩ := Node.of_findBranch?_eq_some exactly
    exact ⟨t, c, ns, same, congrArg Tag.place (of_decide_eq_true asked), member⟩
  | none =>
    rw [exactly] at found
    cases near : f.document.findBranch? (fun t => t.place = tag.place) with
    | some m =>
      rw [near] at found
      obtain rfl := Option.some.inj found
      obtain ⟨t, c, ns, same, asked, member⟩ := Node.of_findBranch?_eq_some near
      exact ⟨t, c, ns, same, of_decide_eq_true asked, member⟩
    | none =>
      rw [near] at found
      exact nomatch found

/-- A parent holds a node if the branch in its place has the node among its children. -/
theorem Sole.holds_iff (sole : f.Sole) {parent tag : Tag} {container : Container} :
    f.holds (.branch parent container) tag = true ↔ ∃ t c ns, .branch t c ns ∈ f.document.subnodes ∧
      t.place = parent.place ∧ ∃ m ∈ ns, m.tag? = some tag := by
  rw [Forest.holds, List.any_eq_true]
  constructor
  · rintro ⟨m, inside, tagged⟩
    rw [Forest.childrenOf] at inside
    cases holder : f.holder? parent with
    | none =>
      rw [holder] at inside
      exact absurd inside List.not_mem_nil
    | some n =>
      rw [holder] at inside
      obtain ⟨t, c, ns, rfl, place, member⟩ := of_holder? sole.alone holder
      exact ⟨t, c, ns, member, place, m, inside, of_decide_eq_true tagged⟩
  · rintro ⟨t, c, ns, member, place, m, inside, tagged⟩
    rw [sole.childrenOf member place]
    exact ⟨m, inside, decide_eq_true tagged⟩

/-- The recorded parent of a node of the document holds it, also when that parent has been replaced. -/
theorem Sole.holds (sole : f.Sole) {s : Sight} (seen : s ∈ f.document.sights) {parent t : Tag}
    {c : Container} (below : s.parent = .branch t c) (place : t.place = parent.place) (container : Container) :
    f.holds (.branch parent container) s.tag = true := by
  rcases Node.parent_of_mem_sightsFrom seen with ⟨-, root⟩ | ⟨u, c', ns, same, member, m, inside, tagged⟩
  · exact nomatch root.symm.trans below
  · obtain ⟨rfl, rfl⟩ := Parent.branch.inj (same.symm.trans below)
    rw [Forest.holds, sole.childrenOf member place, List.any_eq_true]
    exact ⟨m, inside, by simpa using tagged⟩

/-- What is held after a change that puts no node into another place's list has been held before. -/
theorem Sole.unheld {g : Forest} (sole : f.Sole) (after : g.Sole) {tag : Tag} (old : ∀ t c ns,
      .branch t c ns ∈ g.document.subnodes → (∃ m ∈ ns, m.tag? = some tag) →
        ∃ u d ms, .branch u d ms ∈ f.document.subnodes ∧ u.place = t.place ∧ ∃ m ∈ ms, m.tag? = some tag)
    {parent : Parent} (unheld : f.holds parent tag = false) : g.holds parent tag = false := by
  cases parent with
  | none => rfl
  | leaf => rfl
  | branch p container =>
    rw [← Bool.not_eq_true, sole.holds_iff] at unheld
    rw [← Bool.not_eq_true, after.holds_iff]
    rintro ⟨t, c, ns, member, place, child⟩
    obtain ⟨u, d, ms, before, same, child⟩ := old t c ns member child
    exact unheld ⟨u, d, ms, before, same.trans place, child⟩

/-- A change that leaves lists without a certain child alone is made where that child is. -/
theorem Sole.mapChildren (sole : f.Sole) {s : Sight} (seen : s ∈ f.document.sights) {parent t : Tag}
    {c : Container} (below : s.parent = .branch t c) (place : t.place = parent.place)
    {g : List Node → List Node} (elsewhere : ∀ ns, (∀ m ∈ ns, m.tag? ≠ some s.tag) → g ns = ns) :
    f.mapChildren parent g = { f with document := f.document.rebuild fun _ ns => g ns } := by
  rcases Node.parent_of_mem_sightsFrom seen with ⟨-, root⟩ | ⟨u, c', ns, same, member, -⟩
  · exact nomatch root.symm.trans below
  obtain ⟨rfl, rfl⟩ := Parent.branch.inj (same.symm.trans below)
  have changed : f.document.mapBranches (fun v container children =>
      if v = u then .branch u container (g children) else .branch v container children) =
      f.document.rebuild fun _ ns => g ns := by
    apply Node.mapBranches_congr
    intro v container ms within
    by_cases own : v = u
    · rw [if_pos own, own]
    · -- The child is seen below one parent only, so it is not in this list.
      rw [if_neg own]
      congr 1
      refine (elsewhere _ fun m inside tagged => own ?_).symm
      obtain ⟨k, among, rfl⟩ := List.mem_map.mp inside
      have tagged' := (Node.rebuild_tag? (fun _ ns => g ns) k).symm.trans tagged
      obtain ⟨s', seen', tag', below'⟩ := Node.sight_of_child .none within among tagged'
      have twin : s' = s := sole.distinct.sights_inj seen' seen (by rw [tag'])
      rw [twin, same] at below'
      exact (Parent.branch.inj below').1.symm
  rw [Forest.mapChildren, sole.holder? member place]
  simp only [Option.bind_some, Node.tag?, mapAt, sole.alone, List.map_nil, changed]

end Forest
end MarkdownLinks
