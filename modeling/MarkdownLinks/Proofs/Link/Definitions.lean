import MarkdownLinks.Proofs.Link.Transform

/-!
The definitions of a transformed document: one for each identity with one destination, at the top level, in the
first section with a link of that identity.
-/

namespace MarkdownLinks

open Rewriting

namespace Node

/-- The label and the target of a definition. -/
def definition? : Node → Option (Text × Target)
  | definition _ label target => some (label, target)
  | _ => none

/-- The definitions of a tree in walk order. -/
def definitions (n : Node) : List (Text × Target) := n.subnodes.filterMap definition?

theorem definition?_retag (φ : Tag → Container → Tag × Container) (n : Node) : (n.retag φ).definition? = n.definition? := by
  cases n with
  | leaf l => rfl
  | definition tag label target => rfl
  | branch tag container ns =>
    rw [retag_branch]
    rfl

theorem definition?_rebuild (κ : Tag → List Node → List Node) (n : Node) : (n.rebuild κ).definition? = n.definition? := by
  cases n with
  | leaf l => rfl
  | definition tag label target => rfl
  | branch tag container ns =>
    rw [rebuild_branch]
    rfl

end Node

def Sight.entry? (s : Sight) : Option (Text × Target) :=
  match s.face with
  | .definition label target => some (label, target)
  | .branch _ => none

theorem Sight.entry?_eq_none {s : Sight} (other : s.isDefinition = false) : s.entry? = none := by
  obtain ⟨tag, face, parent⟩ := s
  cases face with
  | definition label target => exact absurd other.symm Bool.false_ne_true
  | branch container => rfl

namespace Node

theorem definitions_eq_sights (n : Node) (parent : Parent) :
    n.definitions = (n.sightsFrom parent).filterMap Sight.entry? :=
  subnodes_filterMap (fun _ => rfl) (fun _ _ _ _ => rfl) (fun _ _ _ _ => rfl) parent n

theorem definitions_branch (tag : Tag) (container : Container) (ns : List Node) :
    (branch tag container ns).definitions = ns.flatMap definitions := by
  rw [definitions, subnodes_branch, List.filterMap_cons, List.filterMap_flatMap]
  rfl

theorem definitions_of_isBlankLine (n : Node) (blank : n.isBlankLine) : n.definitions = [] := by
  rw [n.definitions_eq_sights .none, sightsFrom_of_isBlankLine blank]
  rfl

end Node

/-! ### Numbered definitions -/

theorem definitionNodes_definitions (fresh : Nat) (ds : List NewDefinition) :
    (definitionNodes fresh ds).filterMap Node.definition? = ds.map fun d => (d.label, d.target) := by
  induction ds generalizing fresh with
  | nil => rfl
  | cons d ds ih => exact congrArg (_ :: ·) (ih (fresh + 1))

theorem numbered_definitions (fresh : Nat) (dss : List (List NewDefinition)) :
    ((numbered fresh dss).flatten.filterMap Node.definition?).Perm (dss.flatten.map fun d => (d.label, d.target)) := by
  induction dss generalizing fresh with
  | nil => exact List.Perm.refl _
  | cons ds dss ih =>
    rw [numbered, List.flatten_cons, List.filterMap_append, definitionNodes_definitions, List.flatten_cons,
      List.map_append]
    exact ((sortByLabel_perm ds).map _).append (ih _)

/-! ### The sections that are left -/

namespace Transformed

variable {tree reflowed : Node} {fresh : Nat} {index : Index} {o : Outcome} {root : Tag} {ns : List Node}

theorem no_definition (t : Transformed tree fresh index reflowed o root ns) {s : Sight}
    (seen : s ∈ ns.flatMap (Node.sightsFrom (.branch root .document))) : s.isDefinition = false := by
  have all : s ∈ (Node.branch root .document ns).sights := by
    rw [Node.sights_branch]
    exact List.mem_cons_of_mem _ seen
  rw [t.sights] at all
  obtain ⟨s', old, rfl⟩ := List.mem_map.mp all
  rw [retag_isDefinition]
  simpa using (List.mem_filter.mp old).2

theorem not_definition (t : Transformed tree fresh index reflowed o root ns) {n : Node} (inside : n ∈ ns) :
    n.definition? = none := by
  cases n with
  | leaf l => rfl
  | definition tag label target =>
    have seen : ⟨tag, .definition label target, .branch root .document⟩ ∈
        ns.flatMap (Node.sightsFrom (.branch root .document)) :=
      List.mem_flatMap.mpr ⟨_, inside, List.mem_singleton_self _⟩
    exact absurd (t.no_definition seen).symm Bool.false_ne_true
  | branch tag container ms => rfl

theorem definitions_of_left (t : Transformed tree fresh index reflowed o root ns) {n : Node} (inside : n ∈ ns) :
    n.definitions = [] := by
  rw [n.definitions_eq_sights (.branch root .document), List.filterMap_eq_nil_iff]
  exact fun s seen => Sight.entry?_eq_none (t.no_definition (List.mem_flatMap.mpr ⟨n, inside, seen⟩))

theorem bound (t : Transformed tree fresh index reflowed o root ns) (document : DocumentTree tree fresh) {tag : Tag}
    (inside : tag ∈ ns.flatMap Node.tags) : tag.place < fresh := by
  have all : tag ∈ (Node.branch root .document ns).tags := by
    rw [Node.tags_branch]
    exact List.mem_cons_of_mem _ inside
  rw [Node.tags, t.sights] at all
  obtain ⟨s, seen, rfl⟩ := List.mem_map.mp all
  obtain ⟨s', old, rfl⟩ := List.mem_map.mp seen
  rw [retag_place settleAll_place]
  exact document.bound _ (List.mem_map_of_mem (List.mem_filter.mp old).1)

theorem link_sight (t : Transformed tree fresh index reflowed o root ns) (document : DocumentTree tree fresh)
    (all : index.Collected tree.walk) {r : LinkRecord} (inside : r ∈ index.links) :
    ∃ s ∈ ns.flatMap (Node.sightsFrom (.branch root .document)), s.tag = (settle (Report.detect index) index r).tag ∧
      s.face = .branch (.link (settle (Report.detect index) index r).form r.node.position) := by
  have seen := all.sights.subset (List.mem_map_of_mem inside)
  have kept : r.sight.retag (settleAll index) ∈ (Node.branch root .document ns).sights := by
    rw [t.sights]
    exact List.mem_map_of_mem (List.mem_filter.mpr ⟨seen, rfl⟩)
  have shape : (r.sight.retag (settleAll index)).tag = (settle (Report.detect index) index r).tag ∧
      (r.sight.retag (settleAll index)).face =
        .branch (.link (settle (Report.detect index) index r).form r.node.position) := by
    simp only [LinkRecord.sight, Sight.retag, settleAll_record document.distinct (document.tracks all) inside,
      settle_position]
    exact ⟨trivial, trivial⟩
  rw [Node.sights_branch] at kept
  rcases List.mem_cons.mp kept with same | below
  · rw [same] at shape
    cases shape.2
  · exact ⟨_, below, shape⟩

theorem link_tag (t : Transformed tree fresh index reflowed o root ns) (document : DocumentTree tree fresh)
    (all : index.Collected tree.walk) {r : LinkRecord} (inside : r ∈ index.links) :
    (settle (Report.detect index) index r).tag ∈ ns.flatMap Node.tags := by
  obtain ⟨s, seen, own, -⟩ := t.link_sight document all inside
  obtain ⟨n, among, seen⟩ := List.mem_flatMap.mp seen
  rw [← own]
  refine List.mem_flatMap.mpr ⟨n, among, ?_⟩
  rw [← Node.sightsFrom_tags (.branch root .document)]
  exact List.mem_map_of_mem seen

end Transformed

/-! ### What sections call for -/

variable {tree reflowed : Node} {fresh : Nat} {index : Index} {o : Outcome} {root : Tag} {ns : List Node}

theorem mem_calls (document : DocumentTree tree fresh) (all : index.Collected tree.walk) {s : List Node}
    {d : NewDefinition} :
    d ∈ calls (settledIndex (Report.detect index) index) (Report.detect index) s ↔
      ∃ r ∈ index.links, (settle (Report.detect index) index r).tag ∈ s.flatMap Node.tags ∧
        ∃ t, index.soleTarget? r.identity = some t ∧ d = ⟨r.id, r.identity, t⟩ := by
  have places := Tracks_nodup document.distinct (document.tracks all)
  have tagged : ∀ tag, tag ∈ s.flatMap Node.tags ↔ ∃ n ∈ s.flatMap Node.subnodes, n.tag? = some tag := by
    intro tag
    rw [← List.mem_filterMap, List.filterMap_flatMap]
    rw [List.flatMap_congr fun n _ => n.subnodes_tags.symm]
  rw [calls, List.mem_filterMap]
  constructor
  · rintro ⟨n, inside, called⟩
    obtain ⟨r, among, own, target⟩ := (newDefinition?_eq_some_iff all places).mp called
    exact ⟨r, among, (tagged _).mpr ⟨n, inside, own⟩, target⟩
  · rintro ⟨r, among, visible, target⟩
    obtain ⟨n, inside, own⟩ := (tagged _).mp visible
    exact ⟨n, inside, (newDefinition?_eq_some_iff all places).mpr ⟨r, among, own, target⟩⟩

def holdsLink (links : List LinkRecord) (k : Text) (s : List Node) : Bool :=
  links.any fun r => r.identity = k && (s.flatMap Node.tags).contains r.node.tag

theorem holdsLink_settled {k : Text} {s : List Node} :
    holdsLink (settledIndex (Report.detect index) index).links k s ↔
      ∃ r ∈ index.links, r.identity = k ∧ (settle (Report.detect index) index r).tag ∈ s.flatMap Node.tags := by
  simp only [holdsLink, settledIndex, List.any_map, List.any_eq_true, Function.comp_apply, Bool.and_eq_true,
    decide_eq_true_eq, List.contains_iff_mem]
  rfl

/-- A section calls for the definition of an identity exactly if it has a link of it. -/
theorem calls_iff_holdsLink (document : DocumentTree tree fresh) (all : index.Collected tree.walk) {s : List Node}
    {r : LinkRecord} (inside : r ∈ index.links) {t : Target} (sole : index.soleTarget? r.identity = some t) :
    (calls (settledIndex (Report.detect index) index) (Report.detect index) s).any (·.id = r.id) =
      holdsLink (settledIndex (Report.detect index) index).links r.identity s := by
  rw [Bool.eq_iff_iff, holdsLink_settled, List.any_eq_true]
  constructor
  · rintro ⟨d, called, same⟩
    obtain ⟨q, among, visible, u, target, rfl⟩ := (mem_calls document all).mp called
    have own : q.id = r.id := by simpa using same
    exact ⟨q, among, (all.id_eq_iff among inside).mp own, visible⟩
  · rintro ⟨q, among, own, visible⟩
    have sameId := (all.id_eq_iff among inside).mpr own
    rw [← own] at sole
    exact ⟨⟨q.id, q.identity, t⟩, (mem_calls document all).mpr ⟨q, among, visible, t, sole, rfl⟩, by simpa using sameId⟩

namespace Transformed

theorem staged_target (t : Transformed tree fresh index reflowed o root ns) (document : DocumentTree tree fresh)
    (all : index.Collected tree.walk) {d : NewDefinition}
    (stage : d ∈ (staged o.index (Report.detect index) [] (sections ns)).flatten) :
    ∃ r ∈ index.links, index.soleTarget? r.identity = some d.target ∧ d.id = r.id ∧ d.label = r.identity := by
  obtain ⟨ds, among, inside⟩ := List.mem_flatten.mp stage
  obtain ⟨i, slot⟩ := List.mem_iff_getElem?.mp among
  obtain ⟨⟨s, -, called⟩, -⟩ := staged_first slot inside
  rw [t.follows] at called
  obtain ⟨r, recorded, -, u, target, rfl⟩ := (mem_calls document all).mp called
  exact ⟨r, recorded, target, rfl, rfl⟩

theorem target_staged (t : Transformed tree fresh index reflowed o root ns) (document : DocumentTree tree fresh)
    (all : index.Collected tree.walk) {k : Text} {u : Target} (target : index.soleTarget? k = some u) :
    (k, u) ∈ (staged o.index (Report.detect index) [] (sections ns)).flatten.map fun d => (d.label, d.target) := by
  obtain ⟨r, inside, rfl, -⟩ := Index.exists_of_soleTarget? target
  have visible := t.link_tag document all inside
  obtain ⟨n, among, visible⟩ := List.mem_flatMap.mp visible
  rw [← sections_flatten ns] at among
  obtain ⟨s, cut, among⟩ := List.mem_flatten.mp among
  have called : ⟨r.id, r.identity, u⟩ ∈ calls o.index (Report.detect index) s := by
    rw [t.follows]
    exact (mem_calls document all).mpr ⟨r, inside, List.mem_flatMap.mpr ⟨n, among, visible⟩, u, target, rfl⟩
  obtain ⟨d, stage, own⟩ := List.mem_map.mp (staged_all cut called List.not_mem_nil)
  obtain ⟨r', inside', target', sameId, label⟩ := t.staged_target document all stage
  have same := (all.id_eq_iff inside inside').mp (own.symm.trans sameId)
  rw [← same, target] at target'
  exact List.mem_map.mpr ⟨d, stage, by rw [label, ← same, Option.some.inj target']⟩

/-- The staged definitions are those of the identities with one destination. -/
theorem staged_perm (t : Transformed tree fresh index reflowed o root ns) (document : DocumentTree tree fresh)
    (all : index.Collected tree.walk) :
    ((staged o.index (Report.detect index) [] (sections ns)).flatten.map fun d => (d.label, d.target)).Perm
      index.soleTargets := by
  rw [List.perm_ext_iff_of_nodup]
  · rintro ⟨k, u⟩
    rw [Index.mem_soleTargets]
    refine ⟨fun inside => ?_, t.target_staged document all⟩
    obtain ⟨d, stage, same⟩ := List.mem_map.mp inside
    obtain ⟨r, recorded, target, -, label⟩ := t.staged_target document all stage
    obtain ⟨rfl, rfl⟩ := Prod.mk.inj same
    rw [label, target]
  · refine List.Nodup.map_on (fun d stage d' stage' same => ?_) (List.Nodup.of_map _ (staged_nodup [] (sections ns)))
    obtain ⟨r, recorded, -, sameId, label⟩ := t.staged_target document all stage
    obtain ⟨r', recorded', -, sameId', label'⟩ := t.staged_target document all stage'
    have own : r.identity = r'.identity := by
      rw [← label, ← label']
      exact (Prod.mk.inj same).1
    have ids : d.id = d'.id := by
      rw [sameId, sameId']
      exact (all.id_eq_iff recorded recorded').mpr own
    exact List.inj_on_of_nodup_map (staged_nodup [] (sections ns)) stage stage' ids
  · exact List.Nodup.of_map _ index.soleTargets_nodup

/-! ### Where the definitions stand -/

theorem nodes_length (o : Outcome) (fresh : Nat) (report : Report) (ns : List Node) :
    (numbered fresh (staged o.index report [] (sections ns))).length = (sections ns).length := by
  rw [numbered_length, staged_length]

theorem attached {report : Report} {nodes : List Node}
    (among : nodes ∈ numbered fresh (staged o.index report [] (sections ns))) {n : Node} (inside : n ∈ nodes) :
    ∃ place label target, n = .definition ⟨place, 0⟩ label target ∧ fresh ≤ place := by
  obtain ⟨i, slot⟩ := List.mem_iff_getElem?.mp among
  obtain ⟨-, -, d, -, place, rfl⟩ := mem_numbered slot inside
  refine ⟨place, d.label, d.target, rfl, ?_⟩
  have new : (⟨place, 0⟩ : Tag) ∈ (numbered fresh (staged o.index report [] (sections ns))).flatten.flatMap Node.tags :=
    List.mem_flatMap.mpr ⟨_, List.mem_flatten.mpr ⟨nodes, among, inside⟩, by simp⟩
  rw [numbered_tags, Node.freshTags] at new
  obtain ⟨place', inRange, same⟩ := List.mem_map.mp new
  obtain ⟨rfl, -⟩ := Tag.mk.inj same
  exact (List.mem_range'_1.mp inRange).1

/-- A child of a transformed document is one that was left, a blank line, or a new definition. -/
theorem child_cases (t : Transformed tree fresh index reflowed o root ns) {n : Node}
    (inside : n ∈ o.forest.document.children) :
    n ∈ ns ∨ n.isBlankLine ∨ ∃ place label target, n = .definition ⟨place, 0⟩ label target ∧ fresh ≤ place := by
  rw [t.document] at inside
  obtain ⟨s, among, inside⟩ := List.mem_flatten.mp inside
  obtain ⟨i, slot⟩ := List.mem_iff_getElem?.mp among
  obtain ⟨content, nodes, isLast, old, new, rfl⟩ := attachAll_getElem? slot
  rcases mem_attach inside with inside | blank | inside
  · left
    rw [← sections_flatten ns]
    exact List.mem_flatten.mpr ⟨content, List.mem_of_getElem? old, inside⟩
  · exact Or.inr (Or.inl blank)
  · exact Or.inr (Or.inr (attached (List.mem_of_getElem? new) inside))

theorem left_child (t : Transformed tree fresh index reflowed o root ns) {n : Node} (inside : n ∈ ns)
    (shows : n.isBlankLine = false) : n ∈ o.forest.document.children := by
  rw [← sections_flatten ns] at inside
  rw [t.document]
  exact mem_attachAll_of_mem (nodes_length o fresh _ ns) inside shows

theorem child_definitions (t : Transformed tree fresh index reflowed o root ns) {n : Node}
    (inside : n ∈ o.forest.document.children) : n.definitions = n.definition?.toList := by
  rcases t.child_cases inside with old | blank | ⟨place, label, target, rfl, -⟩
  · rw [t.not_definition old, t.definitions_of_left old, Option.toList_none]
  · rw [n.definitions_of_isBlankLine blank]
    cases n with
    | leaf l => rfl
    | definition tag label target => exact absurd blank Bool.false_ne_true
    | branch tag container ms => rfl
  · rfl

theorem topLevel (t : Transformed tree fresh index reflowed o root ns) :
    o.forest.document.definitions = o.forest.document.children.filterMap Node.definition? := by
  have each := List.flatMap_congr fun n inside => t.child_definitions (n := n) inside
  rw [t.document] at each ⊢
  rw [List.filterMap_eq_flatMap_toList]
  refine Eq.trans ?_ each
  rw [Node.definitions, Node.subnodes_branch, List.filterMap_cons, List.filterMap_flatMap]
  rfl

theorem definitions_perm (t : Transformed tree fresh index reflowed o root ns) (document : DocumentTree tree fresh)
    (all : index.Collected tree.walk) : o.forest.document.definitions.Perm index.soleTargets := by
  have blind : ∀ n ∈ (sections ns).flatten, n.definitions = [] := by
    rw [sections_flatten]
    exact fun n inside => t.definitions_of_left inside
  have shown : o.forest.document.definitions =
      (numbered fresh (staged o.index (Report.detect index) [] (sections ns))).flatten.filterMap Node.definition? := by
    rw [t.document, Node.definitions_branch, attachAll_flatMap_new Node.definitions_of_isBlankLine
      (nodes_length o fresh _ ns) blind, List.filterMap_eq_flatMap_toList]
    apply List.flatMap_congr
    intro n inside
    obtain ⟨nodes, among, inside⟩ := List.mem_flatten.mp inside
    obtain ⟨place, label, target, rfl, -⟩ := attached among inside
    rfl
  rw [shown]
  exact (numbered_definitions _ _).trans (t.staged_perm document all)

theorem fresh_definitions (t : Transformed tree fresh index reflowed o root ns) {tag : Tag} {label : Text} {target : Target}
    (inside : .definition tag label target ∈ o.forest.document.subnodes) : fresh ≤ tag.place := by
  rw [t.document, Node.subnodes_branch] at inside
  rcases List.mem_cons.mp inside with same | inside
  · exact nomatch same
  · obtain ⟨n, among, inside⟩ := List.mem_flatMap.mp inside
    have child : n ∈ o.forest.document.children := by
      rw [t.document]
      exact among
    have shown : (label, target) ∈ n.definitions := List.mem_filterMap.mpr ⟨_, inside, rfl⟩
    rcases t.child_cases child with old | blank | ⟨place, label', target', rfl, new⟩
    · rw [t.child_definitions child, t.not_definition old] at shown
      exact nomatch shown
    · rw [n.definitions_of_isBlankLine blank] at shown
      exact nomatch shown
    · obtain ⟨rfl, -, -⟩ := Node.definition.inj (List.mem_singleton.mp inside)
      exact new

theorem attachAll_findIdx? {p q : List Node → Bool} {ss defs : List (List Node)} (same : defs.length = ss.length)
    (agree : ∀ s ∈ ss, ∀ nodes ∈ defs, ∀ isLast, p (attach s nodes isLast) = q s) :
    (attachAll ss defs).findIdx? p = ss.findIdx? q := by
  induction ss generalizing defs with
  | nil => rfl
  | cons s ss ih =>
    cases defs with
    | nil => simp at same
    | cons nodes defs =>
      rw [attachAll, List.findIdx?_cons, List.findIdx?_cons, agree s List.mem_cons_self nodes List.mem_cons_self,
        ih (by simpa using same) fun s' among nodes' among' =>
          agree s' (List.mem_cons_of_mem _ among) nodes' (List.mem_cons_of_mem _ among')]

theorem holdsLink_attach (t : Transformed tree fresh index reflowed o root ns) (document : DocumentTree tree fresh)
    (all : index.Collected tree.walk) {content nodes : List Node} (isLast : Bool)
    (among : nodes ∈ numbered fresh (staged o.index (Report.detect index) [] (sections ns))) (k : Text) :
    holdsLink o.index.links k (attach content nodes isLast) = holdsLink o.index.links k content := by
  have tags : (attach content nodes isLast).flatMap Node.tags = content.flatMap Node.tags ++ nodes.flatMap Node.tags := by
    exact attach_flatMap tags_of_isBlankLine content nodes isLast
  rw [Bool.eq_iff_iff, t.follows, holdsLink_settled, holdsLink_settled]
  refine exists_congr fun r => and_congr_right fun inside => and_congr_right fun _ => ?_
  rw [tags, List.mem_append, or_iff_left]
  intro new
  obtain ⟨n, here, new⟩ := List.mem_flatMap.mp new
  obtain ⟨place, label, target, rfl, above⟩ := attached among here
  have old := t.bound document (t.link_tag document all inside)
  rw [List.mem_singleton.mp new] at old
  exact absurd above (Nat.not_le.mpr old)

theorem sections_children (t : Transformed tree fresh index reflowed o root ns) : sections o.forest.document.children =
    attachAll (sections ns) (numbered fresh (staged o.index (Report.detect index) [] (sections ns))) := by
  obtain ⟨first, rest, cut, isCut⟩ := sections_isCut ns
  have lengths := nodes_length o fresh (Report.detect index) ns
  have plain : ∀ nodes ∈ numbered fresh (staged o.index (Report.detect index) [] (sections ns)), ∀ n ∈ nodes,
      n.isHeading = false := by
    intro nodes among n inside
    obtain ⟨place, label, target, rfl, -⟩ := attached among inside
    rfl
  rw [t.document, Node.children]
  generalize numbered fresh (staged o.index (Report.detect index) [] (sections ns)) = defs at lengths plain
  rw [cut] at lengths ⊢
  obtain ⟨first', rest', same, isCut'⟩ := attachAll_isCut isCut lengths plain
  rw [same]
  exact isCut'.sections

/-- Each definition stands in the first section with a link of its identity. -/
theorem first_section (t : Transformed tree fresh index reflowed o root ns) (document : DocumentTree tree fresh)
    (all : index.Collected tree.walk) {i : Nat} {s : List Node}
    (slot : (sections o.forest.document.children)[i]? = some s) {tag : Tag} {label : Text} {target : Target}
    (inside : .definition tag label target ∈ s) :
    (sections o.forest.document.children).findIdx? (holdsLink o.index.links label) = some i := by
  rw [t.sections_children] at slot ⊢
  obtain ⟨content, nodes, isLast, old, new, rfl⟩ := attachAll_getElem? slot
  rcases mem_attach inside with inside | blank | inside
  · have left : .definition tag label target ∈ ns := by
      rw [← sections_flatten ns]
      exact List.mem_flatten.mpr ⟨content, List.mem_of_getElem? old, inside⟩
    exact nomatch t.not_definition left
  · exact absurd blank Bool.false_ne_true
  · obtain ⟨ds, stage, d, among, place, same⟩ := mem_numbered new inside
    obtain ⟨-, rfl, -⟩ := Node.definition.inj same
    obtain ⟨-, first⟩ := staged_first stage among
    have inStage := List.mem_flatten.mpr ⟨ds, List.mem_of_getElem? stage, among⟩
    obtain ⟨r, recorded, sole, sameId, label⟩ := t.staged_target document all inStage
    rw [← first]
    refine attachAll_findIdx? (nodes_length o fresh _ ns) fun s _ nodes' among' isLast' => ?_
    rw [t.holdsLink_attach document all isLast' among', label, sameId, t.follows]
    exact (calls_iff_holdsLink document all recorded sole).symm

end Transformed

/-! ### All together -/

/-- What holds of the definitions of a transformed document: all stand at the top level, they are those of the
identities with one destination, none is an old one, each stands in the first section with a link of its identity,
and the counters agree. -/
structure DefinitionsPlaced (tree : Node) (index : Index) (o : Outcome) : Prop where
  topLevel : o.forest.document.definitions = o.forest.document.children.filterMap Node.definition?
  unique : (o.forest.document.definitions.map Prod.fst).Nodup
  exact : ∀ k t, (k, t) ∈ o.forest.document.definitions ↔ index.soleTarget? k = some t
  replaced : ∀ tag label target, .definition tag label target ∈ o.forest.document.subnodes → tag ∉ tree.tags
  first : ∀ i s tag label target, (sections o.forest.document.children)[i]? = some s →
    .definition tag label target ∈ s →
    (sections o.forest.document.children).findIdx? (holdsLink o.index.links label) = some i
  added : o.stats.added = o.forest.document.definitions.length
  sum : o.stats.added + o.stats.conflicts + (index.keys.filter fun k => index.destinations k = []).length =
    index.identities

theorem Transformed.definitionsPlaced {tree reflowed : Node} {fresh : Nat} {index : Index} {o : Outcome} {root : Tag}
    {ns : List Node} (t : Transformed tree fresh index reflowed o root ns) (document : DocumentTree tree fresh)
    (all : index.Collected tree.walk) : DefinitionsPlaced tree index o := by
  have perm := t.definitions_perm document all
  have added : o.stats.added = o.forest.document.definitions.length := by
    rw [t.added, perm.length_eq, ← (t.staged_perm document all).length_eq, List.length_map]
  refine ⟨t.topLevel, ?_, fun k u => ?_, ?_, ?_, added, ?_⟩
  · exact (perm.map Prod.fst).nodup_iff.mpr index.soleTargets_nodup
  · rw [perm.mem_iff, Index.mem_soleTargets]
  · intro tag label target inside old
    exact absurd (t.fresh_definitions inside) (Nat.not_le.mpr (document.bound tag old))
  · intro i s tag label target slot inside
    exact t.first_section document all slot inside
  · have groups : index.identities = index.keys.length := by
      rw [Index.identities, ← all.groups, List.length_map]
    rw [added, perm.length_eq, t.conflicts, all.conflictsFound, groups]
    exact index.partition_keys

/-- The definitions of every transformed document are placed; only a document with a link whose text has no Markdown
form is not transformed. -/
theorem transform_places_definitions (next : Nat) (tag : Tag) (children : List Node) (width : Option Int) :
    let (tree, fresh) := Node.number next (.branch tag .document children)
    match Index.empty.collect tree with
    | .error e => tree.transform fresh width = .error e
    | .ok index => ∃ o, tree.transform fresh width = .ok o ∧ DefinitionsPlaced tree index o := by
  have document := documentTree_number next tag children
  generalize Node.number next (.branch tag .document children) = numbered at document
  obtain ⟨tree, fresh⟩ := numbered
  dsimp only at document ⊢
  cases collect : Index.empty.collect tree with
  | error e => exact transform_error width collect
  | ok index =>
    obtain ⟨f, told, o, root, ns, -, done, t⟩ := transform_ok document width collect
    exact ⟨o, done, t.definitionsPlaced document (Index.collected collect)⟩

end MarkdownLinks
