import MarkdownLinks.Proofs.Link.Place
import MarkdownLinks.Proofs.Node.Bare

/-!
The layout of a document does not depend on what its nodes hold. Whatever is done to the nodes, as long as headings
stay headings and blank lines stay blank, cutting into sections and attaching definitions come to the same before and
after; and what is staged depends on what the sections call for alone.
-/

namespace MarkdownLinks

/-- A change of nodes after which a document is laid out as before. -/
structure KeepsLayout (f : Node → Node) : Prop where
  heading : ∀ n, (f n).isHeading = n.isHeading
  blank : ∀ n, (f n).isBlankLine = n.isBlankLine
  gap : f (.leaf .blankLine) = .leaf .blankLine

namespace KeepsLayout

variable {f : Node → Node}

theorem dropLastBlankLines (keeps : KeepsLayout f) (ns : List Node) :
    (dropLastBlankLines ns).map f = MarkdownLinks.dropLastBlankLines (ns.map f) := by
  have same : Node.isBlankLine ∘ f = Node.isBlankLine := funext keeps.blank
  have turned : (ns.map f).reverse = ns.reverse.map f := List.map_reverse.symm
  rw [MarkdownLinks.dropLastBlankLines, MarkdownLinks.dropLastBlankLines, turned, List.dropWhile_map, same,
    List.map_reverse]

theorem attach (keeps : KeepsLayout f) (content definitions : List Node) (isLast : Bool) :
    (attach content definitions isLast).map f =
      MarkdownLinks.attach (content.map f) (definitions.map f) isLast := by
  unfold MarkdownLinks.attach
  cases definitions with
  | nil => cases isLast <;> simp [keeps.dropLastBlankLines]
  | cons d ds =>
    have same := keeps.dropLastBlankLines content
    have gap := keeps.gap
    simp only [List.isEmpty_cons, Bool.not_false, Bool.or_true, if_true, List.map_cons, Bool.false_eq_true, if_false,
      List.map_append, ← same, List.isEmpty_map]
    cases isLast <;> cases (MarkdownLinks.dropLastBlankLines content).isEmpty <;> simp [gap]

theorem attachAll (keeps : KeepsLayout f) (ss defs : List (List Node)) : (attachAll ss defs).map (List.map f) =
    MarkdownLinks.attachAll (ss.map (List.map f)) (defs.map (List.map f)) := by
  induction ss generalizing defs with
  | nil => rfl
  | cons s ss ih =>
    cases defs with
    | nil => rfl
    | cons nodes defs =>
      rw [MarkdownLinks.attachAll, List.map_cons, List.map_cons, List.map_cons, MarkdownLinks.attachAll, keeps.attach,
        ih, List.isEmpty_map]

theorem sections_go (keeps : KeepsLayout f) (current ns : List Node) : (sections.go current ns).map (List.map f) =
    sections.go (current.map f) (ns.map f) := by
  induction ns generalizing current with
  | nil => simp [sections.go]
  | cons n ns ih =>
    rw [sections.go, List.map_cons, sections.go, keeps.heading, List.isEmpty_map]
    split
    · rw [List.map_cons, ih, List.map_reverse]
      rfl
    · rw [ih]
      rfl

theorem sections (keeps : KeepsLayout f) (ns : List Node) :
    (sections ns).map (List.map f) = MarkdownLinks.sections (ns.map f) := keeps.sections_go [] ns

end KeepsLayout

theorem keepsLayout_bare : KeepsLayout Node.bare := ⟨Node.bare_isHeading, Node.bare_isBlankLine, rfl⟩

theorem keepsLayout_retag {φ : Tag → Container → Tag × Container}
    (heading : ∀ t c ns ms, (Node.branch (φ t c).1 (φ t c).2 ms).isHeading = (Node.branch t c ns).isHeading) :
    KeepsLayout (Node.retag φ) := by
  refine ⟨fun n => ?_, fun n => by cases n <;> simp [Node.isBlankLine], rfl⟩
  cases n with
  | leaf l => rfl
  | definition tag label target => rfl
  | branch t c ns => rw [Node.retag_branch, heading]

theorem keepsLayout_rebuild (κ : Tag → List Node → List Node) : KeepsLayout (Node.rebuild κ) :=
  ⟨Node.rebuild_isHeading κ, Node.rebuild_isBlankLine κ, rfl⟩

/-! ### What is staged -/

/-- What is staged depends on what the sections call for alone. -/
theorem staged_congr {index index' : Index} {report report' : Report} {ss ss' : List (List Node)}
    (same : ss.map (calls index report) = ss'.map (calls index' report')) (placed : List Nat) :
    staged index report placed ss = staged index' report' placed ss' := by
  induction ss generalizing ss' placed with
  | nil =>
    cases ss' with
    | nil => rfl
    | cons s' ss' => exact nomatch same
  | cons s ss ih =>
    cases ss' with
    | nil => exact nomatch same
    | cons s' ss' =>
      obtain ⟨first, later⟩ := List.cons.inj same
      have new : newDefinitions index report placed s = newDefinitions index' report' placed s' := by
        rw [newDefinitions_eq, newDefinitions_eq, first]
      rw [staged, staged, new, ih later]

/-- A section calls for definitions by the tags of its nodes. -/
theorem calls_eq_tags (index : Index) (report : Report) (s : List Node) : calls index report s =
    (s.flatMap Node.tags).filterMap fun tag => newDefinition? index report (.branch tag .document []) := by
  have own : ∀ n : Node, newDefinition? index report n =
      n.tag?.bind fun tag => newDefinition? index report (.branch tag .document []) := by
    intro n
    unfold newDefinition?
    cases n.tag? <;> rfl
  rw [calls, funext own, ← List.filterMap_filterMap, List.filterMap_flatMap]
  congr 1
  exact List.flatMap_congr fun n _ => n.subnodes_tags

/-- A change of nodes that keeps their tags keeps what is staged. -/
theorem staged_map {f : Node → Node} (keeps : KeepsLayout f) {ns : List Node} (tags : ∀ n ∈ ns, (f n).tags = n.tags)
    (index : Index) (report : Report) :
    staged index report [] (sections (ns.map f)) = staged index report [] (sections ns) := by
  refine staged_congr ?_ []
  rw [← keeps.sections, List.map_map]
  refine List.map_congr_left fun s among => ?_
  rw [Function.comp_apply, calls_eq_tags, calls_eq_tags, List.flatMap_map]
  congr 1
  refine List.flatMap_congr fun n inside => tags n ?_
  rw [← sections_flatten ns]
  exact List.mem_flatten.mpr ⟨s, among, inside⟩

/-- A change of nodes that leaves definitions alone leaves those alone that are attached. -/
theorem numbered_map {f : Node → Node} (alone : ∀ tag label target, f (.definition tag label target) =
    .definition tag label target) (fresh : Nat) (dss : List (List NewDefinition)) :
    (numbered fresh dss).map (List.map f) = numbered fresh dss := by
  refine (List.map_congr_left fun nodes among => ?_).trans (List.map_id _)
  refine (List.map_congr_left fun n inside => ?_).trans (List.map_id _)
  obtain ⟨i, slot⟩ := List.mem_iff_getElem?.mp among
  obtain ⟨-, -, d, -, place, rfl⟩ := mem_numbered slot inside
  exact alone _ _ _

/-- So it goes together with placing definitions in the sections of the nodes. -/
theorem KeepsLayout.placed {f : Node → Node} (keeps : KeepsLayout f) (alone : ∀ tag label target,
    f (.definition tag label target) = .definition tag label target) (ns : List Node) (fresh : Nat)
    (dss : List (List NewDefinition)) :
    (MarkdownLinks.attachAll (MarkdownLinks.sections ns) (numbered fresh dss)).flatten.map f =
      (MarkdownLinks.attachAll (MarkdownLinks.sections (ns.map f)) (numbered fresh dss)).flatten := by
  rw [List.map_flatten, keeps.attachAll, keeps.sections, numbered_map alone]

end MarkdownLinks
