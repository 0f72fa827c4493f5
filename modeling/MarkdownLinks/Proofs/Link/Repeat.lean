import MarkdownLinks.Proofs.Link.Layout
import MarkdownLinks.Proofs.Link.Reattach
import MarkdownLinks.Proofs.Link.Steady

/-!
A second run over a transformed document. It takes the definitions out and puts them back; after a steady run they
come to stand where they stood, if there are no blank lines to collapse.
-/

namespace MarkdownLinks

open Rewriting

/-! ### Sections without tags and positions -/

theorem Node.definition?_bare (n : Node) : n.bare.definition? = n.definition? := by
  cases n with
  | leaf l => rfl
  | definition tag label target => rfl
  | branch tag container ms =>
    rw [bare_branch]
    rfl

theorem definitionNodes_bare (fresh fresh' : Nat) (ds : List NewDefinition) :
    (definitionNodes fresh ds).map Node.bare = (definitionNodes fresh' ds).map Node.bare := by
  induction ds generalizing fresh fresh' with
  | nil => rfl
  | cons d ds ih =>
    rw [definitionNodes, definitionNodes, List.map_cons, List.map_cons, ih (fresh + 1) (fresh' + 1)]
    rfl

theorem numbered_bare (fresh fresh' : Nat) (dss : List (List NewDefinition)) :
    (numbered fresh dss).map (List.map Node.bare) = (numbered fresh' dss).map (List.map Node.bare) := by
  induction dss generalizing fresh fresh' with
  | nil => rfl
  | cons ds dss ih =>
    rw [numbered, numbered, List.map_cons, List.map_cons, ih (fresh + ds.length) (fresh' + ds.length),
      definitionNodes_bare fresh fresh']

theorem stripped_bare (ns : List Node) : (stripped ns).map Node.bare = stripped (ns.map Node.bare) := by
  have same : (fun n : Node => n.definition?.isNone) ∘ Node.bare = fun n => n.definition?.isNone :=
    funext fun n => congrArg Option.isNone n.definition?_bare
  rw [stripped, stripped, collapseBlankLines_map Node.bare_isBlankLine, List.filter_map, same]

/-! ### What is staged -/

theorem numbered_of_nil {dss : List (List NewDefinition)} (nothing : dss.flatten = []) (fresh : Nat) :
    numbered fresh dss = List.replicate dss.length [] := by
  refine List.eq_replicate_iff.mpr ⟨numbered_length fresh dss, fun nodes among => ?_⟩
  obtain ⟨i, slot⟩ := List.mem_iff_getElem?.mp among
  apply List.eq_nil_iff_forall_not_mem.mpr
  intro n inside
  obtain ⟨ds, stage, d, here, -⟩ := mem_numbered slot inside
  have inStage := List.mem_flatten.mpr ⟨ds, List.mem_of_getElem? stage, here⟩
  rw [nothing] at inStage
  exact nomatch inStage

namespace Index

/-- The definitions that the nodes of a section call for by their texts. -/
def callsOf (index : Index) (s : List Node) : List NewDefinition :=
  s.flatMap fun n => n.subnodes.filterMap index.call?

theorem callsOf_silent (index : Index) (n : Node) (blank : n.isBlankLine) : n.subnodes.filterMap index.call? = [] := by
  apply List.filterMap_eq_nil_iff.mpr
  intro m member
  cases n with
  | leaf l =>
    obtain ⟨l', rfl⟩ := Node.eq_leaf_of_mem_subnodes_leaf member
    rfl
  | definition tag label target => exact absurd blank Bool.false_ne_true
  | branch tag container ns => exact absurd blank Bool.false_ne_true

theorem callsOf_bare (index : Index) (s : List Node) : index.callsOf (s.map Node.bare) = index.callsOf s := by
  rw [callsOf, callsOf, List.flatMap_map]
  exact List.flatMap_congr fun n _ => Node.filterMap_bare index.call?_bare n

end Index

theorem calls_eq_callsOf {index settled : Index} {report : Report} {s : List Node}
    (same : ∀ n ∈ s, ∀ m ∈ n.subnodes, newDefinition? settled report m = index.call? m) :
    calls settled report s = index.callsOf s := by
  rw [calls, List.filterMap_flatMap, Index.callsOf]
  exact List.flatMap_congr fun n inside => List.filterMap_congr (same n inside)

theorem shows_of_call {settled : Index} {report : Report} {n m : Node} {d : NewDefinition} (member : m ∈ n.subnodes)
    (called : newDefinition? settled report m = some d) : n.isBlankLine = false := by
  cases n with
  | leaf l =>
    obtain ⟨l', rfl⟩ := Node.eq_leaf_of_mem_subnodes_leaf member
    exact nomatch called
  | definition tag label target => rfl
  | branch tag container ns => rfl

/-! ### The sections of a transformed document -/

/-- A document that has no definitions, or no blank lines at its start and none that follow another. -/
def Tidy (n : Node) : Prop := n.definitions = [] ∨ collapseBlankLines true n.children = n.children

theorem sections_tidy {n : Node} (tidy : collapseBlankLines true n.children = n.children) {s : List Node}
    (among : s ∈ sections n.children) : collapseBlankLines true s = s := by
  obtain ⟨first, rest, parts, cut⟩ := sections_isCut n.children
  have whole := sections_flatten n.children
  rw [parts] at among whole
  rw [← whole] at tidy
  have each : ∀ s ∈ first :: rest, collapseBlankLines true s = s :=
    List.forall_mem_cons.mpr (collapsed_sections cut.headed tidy)
  exact each s among

variable {tree doc reflowed : Node} {fresh next : Nat} {index after : Index} {o o' : Outcome} {root root' : Tag}
  {ns ns' : List Node}

namespace Transformed

theorem section_plain (t : Transformed tree fresh index tree o root ns) {s : List Node} (among : s ∈ sections ns)
    {n : Node} (inside : n ∈ s) : n ∈ ns ∧ n.definition? = none := by
  have left : n ∈ ns := by
    rw [← sections_flatten ns]
    exact List.mem_flatten.mpr ⟨s, among, inside⟩
  exact ⟨left, t.not_definition left⟩

theorem attached_definition {report : Report} {nodes : List Node}
    (among : nodes ∈ numbered fresh (staged o.index report [] (sections ns))) {n : Node} (inside : n ∈ nodes) :
    n.definition? ≠ none := by
  obtain ⟨place, label, target, rfl, -⟩ := attached among inside
  exact Option.some_ne_none _

/-- The first section shows more than its definitions: they are those of links in it. -/
theorem first_stays (t : Transformed tree fresh index tree o root ns) {first : List Node} {rest : List (List Node)}
    (parts : sections o.forest.document.children = first :: rest) (tidy : collapseBlankLines true first = first)
    (filled : first ≠ []) : stripped first ≠ [] := by
  suffices shown : ∃ n ∈ first, n.isBlankLine = false ∧ n.definition? = none by
    obtain ⟨n, inside, shows, plain⟩ := shown
    exact List.ne_nil_of_mem (mem_stripped inside shows plain)
  obtain ⟨head, tail, shape⟩ := List.exists_cons_of_ne_nil filled
  have opening : head ∈ first := shape ▸ List.mem_cons_self
  have shows : head.isBlankLine = false := by
    by_contra blank
    have shorter := (collapseBlankLines_sublist true tail).length_le
    rw [shape, collapseBlankLines, if_pos (by simpa using blank), if_pos rfl] at tidy
    rw [tidy, List.length_cons] at shorter
    omega
  have slot : (sections o.forest.document.children)[0]? = some first := by
    rw [parts]
    rfl
  rw [t.sections_children] at slot
  obtain ⟨content, nodes, isLast, old, new, rfl⟩ := attachAll_getElem? slot
  have plain := fun n inside => (t.section_plain (List.mem_of_getElem? old) (n := n) inside).2
  rcases mem_attach opening with inside | blank | inside
  · exact ⟨head, opening, shows, plain head inside⟩
  · exact absurd (shows.symm.trans blank) Bool.false_ne_true
  · obtain ⟨ds, stage, d, among, -⟩ := mem_numbered new inside
    obtain ⟨⟨s, same, called⟩, -⟩ := staged_first stage among
    obtain rfl : content = s := Option.some.inj (old.symm.trans same)
    obtain ⟨m, below, called⟩ := List.mem_filterMap.mp called
    obtain ⟨n, inside', below⟩ := List.mem_flatMap.mp below
    have shows' := shows_of_call below called
    exact ⟨n, mem_attach_of_mem inside' shows', shows', plain n inside'⟩

theorem sections_stripped (t : Transformed tree fresh index tree o root ns)
    (tidy : collapseBlankLines true o.forest.document.children = o.forest.document.children) :
    sections (stripped o.forest.document.children) = (sections o.forest.document.children).map stripped := by
  obtain ⟨first, rest, parts, cut⟩ := sections_isCut o.forest.document.children
  have whole := sections_flatten o.forest.document.children
  have here : collapseBlankLines true first = first := sections_tidy tidy (parts ▸ List.mem_cons_self)
  have kept := cut.stripped fun more => t.first_stays parts here fun empty => more (cut.empty empty)
  rw [parts] at whole
  rw [whole] at kept
  rw [kept, parts]

/-- Placing definitions brings no blank lines together. -/
theorem collapsed_children (t : Transformed tree fresh index reflowed o root ns)
    (tidy : collapseBlankLines true ns = ns) :
    collapseBlankLines true o.forest.document.children = o.forest.document.children := by
  obtain ⟨first, rest, parts, cut⟩ := sections_isCut ns
  have whole := sections_flatten ns
  have lengths := nodes_length o fresh (Report.detect index) ns
  have plain : ∀ nodes ∈ numbered fresh (staged o.index (Report.detect index) [] (sections ns)),
      ∀ n ∈ nodes, n.isHeading = false ∧ n.isBlankLine = false := by
    intro nodes among n inside
    obtain ⟨place, label, target, rfl, -⟩ := attached among inside
    exact ⟨rfl, rfl⟩
  rw [t.document, Node.children]
  generalize numbered fresh (staged o.index (Report.detect index) [] (sections ns)) = defs at lengths plain
  rw [parts] at lengths whole ⊢
  refine attachAll_collapsed cut lengths (fun nodes among n inside => (plain nodes among n inside).1)
    (fun nodes among n inside => (plain nodes among n inside).2) ?_
  rw [whole, tidy]

theorem calls_left (t : Transformed tree fresh index tree o root ns) (document : DocumentTree tree fresh)
    (all : index.Collected tree.walk) (flat : tree.flat) {s : List Node} (among : s ∈ sections ns) :
    calls o.index (Report.detect index) s = index.callsOf s := by
  apply calls_eq_callsOf
  intro n inside m member
  have texts := t.left_texts document all flat
  rw [t.follows] at texts ⊢
  refine newDefinition?_eq_call? (t.left_places document).1 all
    (Tracks_nodup document.distinct (document.tracks all)) texts ?_
  exact Node.mem_subnodes_of_child (t.section_plain among inside).1 member

theorem added_eq (t : Transformed tree fresh index tree o root ns) (document : DocumentTree tree fresh)
    (all : index.Collected tree.walk) : o.stats.added = index.soleTargets.length := by
  have count := (t.staged_perm document all).length_eq
  rw [List.length_map] at count
  rw [t.added, count]

end Transformed

namespace Reread

/-! ### Taking the definitions out again -/

theorem children_bare (h : Reread tree fresh index o root ns doc next after) :
    doc.children.map Node.bare = o.forest.document.children.map Node.bare := by
  obtain ⟨top, children, rfl⟩ := h.document'.root
  have alike := h.alike
  have document := h.run.document
  rw [document, Node.bare_branch, Node.bare_branch] at alike
  rw [document]
  exact (Node.branch.inj alike).2.2

theorem child_definitions (h : Reread tree fresh index o root ns doc next after) {n : Node}
    (inside : n ∈ doc.children) : n.definitions = n.definition?.toList := by
  have bare := List.mem_map_of_mem (f := Node.bare) inside
  rw [h.children_bare] at bare
  obtain ⟨m, inside', same⟩ := List.mem_map.mp bare
  rw [← n.definitions_bare, ← n.definition?_bare, ← same, Node.definitions_bare, Node.definition?_bare]
  exact h.run.child_definitions inside'

theorem mem_child (h : Reread tree fresh index o root ns doc next after) {n m : Node} (inside : n ∈ doc.children)
    (member : m ∈ n.subnodes) : m ∈ doc.subnodes := by
  obtain ⟨top, children, rfl⟩ := h.document'.root
  exact Node.mem_subnodes_of_child inside member

theorem no_definition_below (h : Reread tree fresh index o root ns doc next after) {n : Node}
    (inside : n ∈ doc.children) {tag : Tag} {container : Container} {ms : List Node}
    (member : .branch tag container ms ∈ n.subnodes) {m : Node} (among : m ∈ ms) : m.definition? = none := by
  have own := h.child_definitions inside
  have below := Node.mem_subnodes_below member among (Node.mem_subnodes_self m)
  cases n with
  | leaf l =>
    obtain ⟨l', same⟩ := Node.eq_leaf_of_mem_subnodes_leaf member
    exact nomatch same
  | definition tag label target => exact nomatch List.mem_singleton.mp member
  | branch tag container ns => exact List.filterMap_eq_nil_iff.mp own m below

theorem definition_parent (h : Reread tree fresh index o root ns doc next after) {d : DefinitionRecord}
    (recorded : d ∈ after.definitions) : d.parent.tag? = doc.tag? := by
  have children := fun n inside => h.child_definitions (n := n) inside
  obtain ⟨top, ms, shape⟩ := h.document'.root
  rw [h.again.definitions_eq] at recorded
  obtain ⟨s, seen, shown⟩ := List.mem_filterMap.mp recorded
  obtain ⟨-, definition, parent⟩ := definition?_eq_some shown
  rw [shape] at children seen ⊢
  rw [← parent]
  rcases List.mem_cons.mp (Node.sights_branch _ _ _ ▸ seen) with rfl | seen
  · exact absurd definition Bool.false_ne_true
  · obtain ⟨n, inside, seen⟩ := List.mem_flatMap.mp seen
    have own := children n inside
    cases n with
    | leaf l => exact nomatch seen
    | definition tag label target =>
      rw [List.mem_singleton.mp seen]
      rfl
    | branch tag container ks =>
      rw [Node.definitions_eq_sights _ (.branch top .document)] at own
      have blind := List.filterMap_eq_nil_iff.mp own s seen
      obtain ⟨tag', face, parent'⟩ := s
      cases face with
      | definition label target => exact nomatch blind
      | branch container' => exact absurd definition Bool.false_ne_true

theorem cleaned_children (h : Reread tree fresh index o root ns doc next after) {top : Tag}
    (tagged : doc.tag? = some top) : cleaned (some top) after.definitions top doc.children =
      if after.definitions = [] then doc.children else stripped doc.children := by
  have same : doc.children.filter (!Node.carries (after.definitions.map (·.tag)) ·) =
      doc.children.filter (·.definition?.isNone) := by
    refine List.filter_congr fun n inside => ?_
    rw [carries_recorded h.document'.distinct h.again (h.mem_child inside (Node.mem_subnodes_self n)), Option.not_isSome]
  rw [cleaned, tidied]
  by_cases empty : after.definitions = []
  · rw [if_pos empty, empty, List.filterMap_nil, if_neg List.not_mem_nil, List.map_nil]
    apply List.filter_eq_self.mpr
    intro n _
    rw [Node.carries]
    cases n.tag? <;> rfl
  · obtain ⟨d, rest, shape⟩ := List.exists_cons_of_ne_nil empty
    have recorded : d ∈ after.definitions := shape ▸ List.mem_cons_self
    have emptied : top ∈ after.definitions.filterMap (·.parent.tag?) :=
      List.mem_filterMap.mpr ⟨d, recorded, (h.definition_parent recorded).trans tagged⟩
    rw [if_pos emptied, if_neg empty, same, decide_eq_true rfl]
    rfl

/-- After a steady run, a second one takes the definitions out and leaves the rest. -/
theorem left (h : Reread tree fresh index o root ns doc next after) (steady : Steady index)
    (t' : Transformed doc next after doc o' root' ns') : doc.tag? = some root' ∧
      ns' = if after.definitions = [] then doc.children else stripped doc.children := by
  have tracks := h.document'.tracks h.again
  have same : doc.retag (settleAll after) = doc := by
    apply Node.retag_eq_self
    intro u c ms member
    unfold settleAll relink
    cases found : after.links.find? (·.node.tag = u) with
    | none => rfl
    | some r' =>
      have inside := List.mem_of_find?_eq_some found
      obtain rfl := record_tag found
      rw [container_of_record h.document'.distinct tracks inside member]
      simp only [h.settled steady inside]
  have left := t'.left
  have below : doc.children.map (Node.rebuild (cleaned (some root') after.definitions)) = doc.children := by
    refine (List.map_congr_left fun n inside => ?_).trans (List.map_id _)
    apply Node.rebuild_eq_self
    intro u c ms member
    exact cleaned_eq_self h.document' h.again (h.mem_child inside member)
      (fun m among => h.no_definition_below inside member among) rfl _
  obtain ⟨top, children, shape⟩ := h.document'.root
  have tagged : doc.tag? = some top := by
    rw [shape]
    rfl
  have tidied := h.cleaned_children tagged
  rw [same] at left
  rw [shape, Node.children] at below tidied ⊢
  rw [shape, Node.rebuild_branch, below] at left
  obtain ⟨rfl, -, left⟩ := Node.branch.inj left
  exact ⟨rfl, left.trans tidied⟩

/-! ### Putting them back -/

theorem calls (h : Reread tree fresh index o root ns doc next after) (steady : Steady index)
    (t' : Transformed doc next after doc o' root' ns') {s : List Node} (among : s ∈ sections ns') :
    MarkdownLinks.calls o'.index (Report.detect after) s = index.callsOf s := by
  have tracks := h.document'.tracks h.again
  have followed : (settledIndex (Report.detect after) after).links = after.links := by
    refine (List.map_congr_left fun r' inside' => ?_).trans (List.map_id _)
    rw [settleRecord, h.settled steady inside']
    rfl
  have call : after.call? = index.call? := by
    have sole : after.soleTarget? = index.soleTarget? := funext fun k => (h.targets steady k).2
    have number : after.idOf = index.idOf := funext h.idOf
    funext n
    unfold Index.call?
    rw [sole, number]
  apply calls_eq_callsOf
  intro n inside m member
  have below : m ∈ doc.subnodes := by
    refine h.mem_child (n := n) ?_ member
    have here := (t'.section_plain among inside).1
    rw [(h.left steady t').2] at here
    split at here
    · exact here
    · exact (stripped_sublist _).subset here
  rw [← call, t'.follows]
  refine newDefinition?_eq_call? h.document'.distinct h.again (Tracks_nodup h.document'.distinct tracks) ?_ below
  rw [followed, h.again.texts]

theorem sections_left (h : Reread tree fresh index o root ns doc next after)
    (tidy : collapseBlankLines true o.forest.document.children = o.forest.document.children) :
    (sections (stripped doc.children)).map (List.map Node.bare) =
      ((attachAll (sections ns) (numbered fresh (staged o.index (Report.detect index) [] (sections ns)))).map
        stripped).map (List.map Node.bare) := by
  rw [keepsLayout_bare.sections, stripped_bare, h.children_bare, ← stripped_bare, ← keepsLayout_bare.sections,
    h.run.sections_stripped tidy, h.run.sections_children]

theorem staged (h : Reread tree fresh index o root ns doc next after) (steady : Steady index)
    (tidy : collapseBlankLines true o.forest.document.children = o.forest.document.children)
    (t' : Transformed doc next after doc o' root' (stripped doc.children)) :
    MarkdownLinks.staged o'.index (Report.detect after) [] (sections (stripped doc.children)) =
      MarkdownLinks.staged o.index (Report.detect index) [] (sections ns) := by
  refine staged_congr ?_ []
  have blind : index.callsOf ∘ List.map Node.bare = index.callsOf := funext index.callsOf_bare
  have again := congrArg (List.map index.callsOf) (h.sections_left tidy)
  rw [List.map_map, List.map_map (g := index.callsOf), blind] at again
  rw [List.map_congr_left fun s among => h.calls steady t' among, again, List.map_map,
    List.map_congr_left fun s among => h.run.calls_left h.document h.all h.flat among]
  apply attachAll_map (Transformed.nodes_length o fresh _ ns)
  intro s among nodes among' isLast
  exact stripped_flatMap index.callsOf_silent (fun n inside => (h.run.section_plain among inside).2)
    (fun n inside => Transformed.attached_definition among' inside) isLast

theorem definitions_eq_nil (h : Reread tree fresh index o root ns doc next after) :
    after.definitions = [] ↔ o.forest.document.definitions = [] := by
  rw [← List.map_eq_nil_iff, h.again.definitions_map, List.map_eq_nil_iff, ← doc.definitions_bare, h.alike,
    Node.definitions_bare]

theorem attached (h : Reread tree fresh index o root ns doc next after) (steady : Steady index)
    (tidy : Tidy o.forest.document) (t' : Transformed doc next after doc o' root' ns') :
    (attachAll (sections ns') (numbered next (MarkdownLinks.staged o'.index (Report.detect after) [] (sections ns')))).map
        (List.map Node.bare) =
      (attachAll (sections ns) (numbered fresh (MarkdownLinks.staged o.index (Report.detect index) [] (sections
        ns)))).map (List.map Node.bare) := by
  have lengths := Transformed.nodes_length o fresh (Report.detect index) ns
  obtain ⟨-, left⟩ := h.left steady t'
  by_cases empty : after.definitions = []
  · -- Nothing was placed, so nothing is taken out and nothing is placed again.
    rw [if_pos empty] at left
    have nothing : (MarkdownLinks.staged o.index (Report.detect index) [] (sections ns)).flatten = [] := by
      have nothing := (h.run.definitions_perm h.document h.all).length_eq
      rw [h.definitions_eq_nil.mp empty, ← h.run.added_eq h.document h.all, h.run.added] at nothing
      exact List.length_eq_zero_iff.mp nothing.symm
    have none' : (MarkdownLinks.staged o'.index (Report.detect after) [] (sections ns')).flatten = [] := by
      refine List.length_eq_zero_iff.mp ?_
      rw [← t'.added, t'.added_eq h.document' h.again, h.soleTargets steady, ← h.run.added_eq h.document h.all,
        h.run.added, nothing, List.length_nil]
    have parts : (sections ns').map (List.map Node.bare) =
        (attachAll (sections ns) (numbered fresh (MarkdownLinks.staged o.index (Report.detect index) [] (sections
          ns)))).map (List.map Node.bare) := by
      rw [left, keepsLayout_bare.sections, h.children_bare, ← keepsLayout_bare.sections, h.run.sections_children]
    have count := congrArg List.length parts
    rw [List.length_map, List.length_map, attachAll_length lengths] at count
    rw [numbered_of_nil none', staged_length, count, keepsLayout_bare.attachAll, parts]
    rw [numbered_of_nil nothing, staged_length] at lengths ⊢
    rw [← keepsLayout_bare.attachAll, attachAll_twice lengths lengths (fun nodes => List.eq_of_mem_replicate) fun nodes =>
      List.eq_of_mem_replicate]
  · rw [if_neg empty] at left
    subst left
    have tidy := tidy.resolve_left fun vacant => empty (h.definitions_eq_nil.mpr vacant)
    have alike := numbered_bare next fresh (MarkdownLinks.staged o.index (Report.detect index) [] (sections ns))
    have pattern := congrArg (List.map List.isEmpty) alike
    have blind : List.isEmpty ∘ List.map Node.bare = List.isEmpty := funext fun _ => List.isEmpty_map
    rw [List.map_map, List.map_map, blind] at pattern
    have same := attachAll_stripped lengths pattern
      (fun s among => sections_tidy tidy (h.run.sections_children ▸ among))
      (fun s among n inside => (h.run.section_plain among inside).2)
      fun nodes among n => Transformed.attached_definition among
    rw [h.staged steady tidy t', keepsLayout_bare.attachAll, h.sections_left tidy, ← keepsLayout_bare.attachAll, same,
      keepsLayout_bare.attachAll, alike, ← keepsLayout_bare.attachAll]

/-- A second run over a steady and tidy document leaves it as it is. -/
theorem document_again (h : Reread tree fresh index o root ns doc next after) (steady : Steady index)
    (tidy : Tidy o.forest.document) (t' : Transformed doc next after doc o' root' ns') :
    o'.forest.document.bare = o.forest.document.bare := by
  have same := congrArg List.flatten (h.attached steady tidy t')
  rw [← List.map_flatten, ← List.map_flatten] at same
  rw [t'.document, h.run.document, Node.bare_branch, Node.bare_branch, same]

end Reread

end MarkdownLinks
