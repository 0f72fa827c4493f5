import MarkdownLinks.Proofs.Link.Again
import MarkdownLinks.Proofs.Link.Inlined
import MarkdownLinks.Proofs.Link.Layout

/-!
Two runs side by side, one over a document and one over the document with some references written out. Both settle
the links alike and call for the same definitions, so they end in one document. Only where a written out link has
lost a definition can they differ: a reference may have stayed the node that the definition was recorded below, and
then its blank lines are tidied up, while the link in its place has been replaced.
-/

namespace MarkdownLinks

open Rewriting

def Container.moved (position : Option Position) : Container → Container
  | .link form _ => .link form position
  | c => c

/-- What a branch of the one run is in the other: the node that stands in its place. -/
def Index.crossing (after : Index) (t : Tag) (c : Container) : Tag × Container :=
  match after.links.find? (·.node.tag.place = t.place) with
  | some r => ((after.rewritten r).tag, c.moved r.node.position)
  | none => (t, c)

/-- The places of the links that have been written out and that definitions were recorded below. -/
def Index.holders (index : Index) (chosen : Tag → Bool) : List Nat :=
  (index.links.filter fun r => (index.inlined? chosen r).isSome &&
    (index.definitions.filterMap (·.parent.tag?)).contains r.node.tag).map (·.node.tag.place)

/-- The list of a node in one of these places, without blank lines that follow another. -/
def collapseAt (places : List Nat) (t : Tag) (ns : List Node) : List Node :=
  if t.place ∈ places then collapseBlankLines false ns else ns

def Node.tidyAt (places : List Nat) : Node → Node := rebuild (collapseAt places)

theorem countP_add {α : Type} {p q s : α → Bool} {as : List α}
    (each : ∀ a ∈ as, (if s a then 1 else 0) = (if p a then 1 else 0) + if q a then 1 else 0) :
    as.countP s = as.countP p + as.countP q := by
  induction as with
  | nil => rfl
  | cons a as ih =>
    have own := each a List.mem_cons_self
    have later := ih fun b inside => each b (List.mem_cons_of_mem _ inside)
    rw [List.countP_cons, List.countP_cons, List.countP_cons, own, later]
    omega

variable {tree : Node} {fresh : Nat} {index after : Index} {chosen : Tag → Bool} {positions : Tag → Option Position}
  {o o' : Outcome} {root root' : Tag} {ns ns' : List Node} {r : LinkRecord}

theorem Container.moved_bare (position : Option Position) (c : Container) : (c.moved position).bare = c.bare := by
  cases c <;> rfl

theorem rewritten_place (index : Index) (r : LinkRecord) : (index.rewritten r).tag.place = r.node.tag.place := by
  simp only [Index.rewritten]
  split <;> rfl

theorem crossing_place (t : Tag) (c : Container) : (after.crossing t c).1.place = t.place := by
  unfold Index.crossing
  split
  · rename_i r found
    rw [rewritten_place]
    simpa using List.find?_some found
  · rfl

theorem crossing_bare (t : Tag) (c : Container) : (after.crossing t c).2.bare = c.bare := by
  unfold Index.crossing
  split
  · exact Container.moved_bare _ c
  · rfl

theorem keepsLayout_crossing (after : Index) : KeepsLayout (Node.retag after.crossing) := by
  refine keepsLayout_retag fun t c ns ms => ?_
  have same : (after.crossing t c).2.bare = c.bare := crossing_bare t c
  rw [← Node.bare_isHeading, ← Node.bare_isHeading (.branch t c ns), Node.bare_branch, Node.bare_branch, same]
  cases c <;> rfl

/-! ### Tidying up -/

namespace Node

theorem tidyAt_nil (n : Node) : n.tidyAt [] = n := rebuild_eq_self fun _ _ _ _ => if_neg List.not_mem_nil

theorem tidyAt_branch {places : List Nat} {tag : Tag} (other : tag.place ∉ places) (container : Container)
    (ms : List Node) : (branch tag container ms).tidyAt places = .branch tag container (ms.map (tidyAt places)) := by
  rw [tidyAt, rebuild_branch, collapseAt, if_neg other]

theorem tags_tidyAt (places : List Nat) (n : Node) : (n.tidyAt places).tags = n.tags := by
  have seen : (n.tidyAt places).sights = n.sights := by
    refine sightsFrom_rebuild (fun t c ms _ parent => ?_) .none
    unfold collapseAt
    split
    · exact collapseBlankLines_flatMap (fun _ blank => sightsFrom_of_isBlankLine blank parent) _ _
    · rfl
  rw [tags, seen, tags]

end Node

theorem keepsLayout_tidyAt (places : List Nat) : KeepsLayout (Node.tidyAt places) := keepsLayout_rebuild _

/-- Whether a list has been tidied up before does not matter. -/
theorem collapse_cleaned {root : Option Tag} {t : Tag} (below : root ≠ some t) (records : List DefinitionRecord)
    (ms : List Node) : collapseBlankLines false (cleaned root records t ms) =
      collapseBlankLines false (ms.filter (!Node.carries (records.map (·.tag)) ·)) := by
  rw [cleaned, tidied, decide_eq_false below]
  split
  · exact collapseBlankLines_twice false _
  · rfl

/-! ### The links -/

namespace Inlined

theorem document' (h : Inlined tree fresh index after chosen positions) :
    DocumentTree (tree.retag (index.inlining chosen positions)) fresh := h.document.inlined h.all chosen positions

theorem find?_place (h : Inlined tree fresh index after chosen positions) {r' : LinkRecord} (inside : r' ∈ after.links)
    {t : Tag} (place : t.place = r'.node.tag.place) :
    after.links.find? (·.node.tag.place = t.place) = some r' := by
  have found : (after.links.find? (·.node.tag.place = t.place)).isSome :=
    List.find?_isSome.mpr ⟨r', inside, by simp [place]⟩
  obtain ⟨q, found⟩ := Option.isSome_iff_exists.mp found
  have own : q.node.tag.place = t.place := by simpa using List.find?_some found
  rw [found, List.inj_on_of_nodup_map (Tracks_nodup h.document'.distinct (h.document'.tracks h.again))
    (List.mem_of_find?_eq_some found) inside (own.trans place)]

/-- A branch that is no recorded link is the same in both runs. -/
theorem crossing_other (h : Inlined tree fresh index after chosen positions) {t : Tag} {c : Container} {ms : List Node}
    (member : .branch t c ms ∈ tree.subnodes) (other : index.links.find? (·.node.tag = t) = none) (d : Container) :
    after.crossing t d = (t, d) := by
  have absent : after.links.find? (·.node.tag.place = t.place) = none := by
    refine List.find?_eq_none.mpr fun r' inside same => ?_
    obtain ⟨r, old, own, -⟩ := h.record_before inside
    obtain ⟨ks, here⟩ := Tracks_node (h.document.tracks h.all) old
    have place : r.node.tag.place = t.place := by rw [← own]; simpa using same
    have tag := (Node.branch.inj (h.document.distinct.branch_inj here member place)).1
    exact List.find?_eq_none.mp other r old (by simpa using tag)
  rw [Index.crossing, absent]

theorem crossing_record (h : Inlined tree fresh index after chosen positions) {r' : LinkRecord}
    (inside' : r' ∈ after.links) (own : r'.node.tag = r.node.tag) (c : Container) :
    after.crossing (index.rewritten r).tag c = ((after.rewritten r').tag, c.moved r'.node.position) := by
  rw [Index.crossing, h.find?_place inside' (by rw [rewritten_place, own])]

/-- Settling the links of the one document and crossing over is writing out references and settling the links of the
other. -/
theorem crossing_settled (h : Inlined tree fresh index after chosen positions) {t : Tag} {c : Container} {ms : List Node}
    (member : .branch t c ms ∈ tree.subnodes) :
    settleAll after (index.inlining chosen positions t c).1 (index.inlining chosen positions t c).2 =
      after.crossing (settleAll index t c).1 (settleAll index t c).2 := by
  have tracks := h.document.tracks h.all
  have tracks' := h.document'.tracks h.again
  rw [inlining_place, settleAll_eq_rewriteBranch h.all]
  cases found : index.links.find? (·.node.tag = t) with
  | some r =>
    have inside := List.mem_of_find?_eq_some found
    obtain rfl := record_tag found
    obtain ⟨r', inside', own, form, identity⟩ := h.record inside
    rw [Index.rewriteBranch, found, h.crossing_record inside' own, ← own,
      settleAll_record h.document'.distinct tracks' inside', settle_eq_rewritten h.again inside']
    have same := h.rewrittenForm inside form identity
    simp only [Index.rewritten, same, Container.moved]
  | none =>
    have same : index.inlining chosen positions t c = (t, c) := by
      rw [Index.inlining, Index.inlinedAt?, found]
      rfl
    have absent : after.links.find? (·.node.tag = t) = none := by
      refine List.find?_eq_none.mpr fun r' inside' own => ?_
      obtain ⟨r, inside, tag, -⟩ := h.record_before inside'
      exact List.find?_eq_none.mp found r inside (by simpa [tag] using own)
    rw [same, settleAll_eq_rewriteBranch h.again, Index.rewriteBranch, absent, Index.rewriteBranch, found]
    exact (h.crossing_other member found c).symm

theorem retag_settled (h : Inlined tree fresh index after chosen positions) :
    (tree.retag (index.inlining chosen positions)).retag (settleAll after) =
      (tree.retag (settleAll index)).retag after.crossing := by
  rw [Node.retag_retag, Node.retag_retag]
  exact Node.retag_congr fun t c ms member => h.crossing_settled member

/-! ### The definitions -/

theorem cleaned_eq (h : Inlined tree fresh index after chosen positions) (top : Option Tag) :
    cleaned top after.definitions = cleaned top index.definitions := by
  funext t ms
  rw [cleaned, cleaned, h.definition_tags, h.definition_parents]

theorem carries_crossing (h : Inlined tree fresh index after chosen positions) (n : Node) :
    Node.carries (index.definitions.map (·.tag)) (n.retag after.crossing) =
      Node.carries (index.definitions.map (·.tag)) n := by
  cases n with
  | leaf l => rfl
  | definition tag label target => rfl
  | branch t c ms =>
    rw [Node.retag_branch, Node.carries, Node.carries, Node.tag?, Node.tag?, Index.crossing]
    cases found : after.links.find? (·.node.tag.place = t.place) with
    | none => rfl
    | some r' =>
      have inside := List.mem_of_find?_eq_some found
      have place : r'.node.tag.place = t.place := by simpa using List.find?_some found
      -- In the place of a link no definition stands.
      have apart : ∀ u : Tag, u.place = r'.node.tag.place → (index.definitions.map (·.tag)).contains u = false := by
        intro u same
        obtain ⟨ks, member⟩ := Tracks_node (h.document'.tracks h.again) inside
        rw [List.contains_eq_mem, decide_eq_false_iff_not, ← h.definition_tags]
        exact not_recorded h.document'.distinct h.again member rfl rfl same
      simp only [Option.any_some, apart _ (rewritten_place after r'), apart t place.symm]

/-- Outside the places of the holders, a node is the parent of definitions in both runs or in neither. -/
theorem parent_crossing (h : Inlined tree fresh index after chosen positions) {t : Tag} {c : Container} {ms : List Node}
    (member : .branch t c ms ∈ tree.subnodes) (apart : t.place ∉ index.holders chosen) :
    (after.crossing (settleAll index t c).1 (settleAll index t c).2).1 ∈ index.definitions.filterMap (·.parent.tag?) ↔
      (settleAll index t c).1 ∈ index.definitions.filterMap (·.parent.tag?) := by
  rw [settleAll_eq_rewriteBranch h.all, Index.rewriteBranch]
  cases found : index.links.find? (·.node.tag = t) with
  | none => rw [h.crossing_other member found]
  | some r =>
    have inside := List.mem_of_find?_eq_some found
    obtain rfl := record_tag found
    obtain ⟨r', inside', own, form, identity⟩ := h.record inside
    have same := h.rewrittenForm inside form identity
    simp only [h.crossing_record inside' own]
    rw [Index.inlinedForm, inlinedAt?_record h.document.distinct (h.document.tracks h.all) inside] at form
    cases written : index.inlined? chosen r with
    | none =>
      rw [written] at form
      have tag : (after.rewritten r').tag = (index.rewritten r).tag := by
        simp only [Index.rewritten, same, form, own]
      rw [tag]
    | some target =>
      -- No definition was recorded below the reference, so none was below a node in its place.
      have empty : ∀ u : Tag, u.place = r.node.tag.place → u ∉ index.definitions.filterMap (·.parent.tag?) := by
        intro u place noted
        obtain ⟨d, ks, here, -⟩ := branch_of_parent h.all noted
        obtain rfl := (Node.branch.inj (h.document.distinct.branch_inj here member place)).1
        refine apart (List.mem_map.mpr ⟨r, List.mem_filter.mpr ⟨inside, ?_⟩, rfl⟩)
        rw [written, Option.isSome_some, Bool.true_and, List.contains_iff_mem]
        exact noted
      exact iff_of_false (empty _ (by rw [rewritten_place, own])) (empty _ (rewritten_place index r))

/-- Where no definition stands in the text of a link, no link that is written out has held one. -/
theorem holders_of_flat (h : Inlined tree fresh index after chosen positions) (flat : tree.flat) :
    index.holders chosen = [] := by
  rw [Index.holders, List.map_eq_nil_iff, List.filter_eq_nil_iff]
  intro r inside held
  obtain ⟨-, noted⟩ := Bool.and_eq_true_iff.mp held
  obtain ⟨ks, member⟩ := Tracks_node (h.document.tracks h.all) inside
  refine not_noted h.document.distinct h.all member (fun m among => ?_) rfl (List.contains_iff_mem.mp noted)
  exact (Node.flat_below flat member (List.mem_flatMap_of_mem among (Node.mem_subnodes_self m))).2

theorem not_root (h : Inlined tree fresh index after chosen positions) (top : tree.tag? = some root)
    (inside : r ∈ index.links) : r.node.tag.place ≠ root.place := by
  obtain ⟨tag, children, rfl⟩ := h.document.root
  obtain rfl := Option.some.inj top
  intro place
  obtain ⟨ks, member⟩ := Tracks_node (h.document.tracks h.all) inside
  exact nomatch (Node.branch.inj (h.document.distinct.branch_inj member (Node.mem_subnodes_self _) place)).2.1

theorem root_apart (h : Inlined tree fresh index after chosen positions) (top : tree.tag? = some root) :
    root.place ∉ index.holders chosen := by
  intro held
  obtain ⟨r, among, place⟩ := List.mem_map.mp held
  exact h.not_root top (List.mem_filter.mp among).1 place

theorem crossing_root (h : Inlined tree fresh index after chosen positions) (top : tree.tag? = some root)
    (c : Container) : after.crossing root c = (root, c) := by
  have absent : after.links.find? (·.node.tag.place = root.place) = none := by
    refine List.find?_eq_none.mpr fun r' inside' same => ?_
    obtain ⟨r, inside, own, -⟩ := h.record_before inside'
    exact h.not_root top inside (by rw [← own]; simpa using same)
  rw [Index.crossing, absent]

/-- Tidied up where links have been written out, the lists that are left are the same in both runs. -/
theorem cleaned_crossing (h : Inlined tree fresh index after chosen positions) (top : tree.tag? = some root) {t : Tag}
    {c : Container} {ms : List Node} (member : .branch t c ms ∈ (tree.retag (settleAll index)).subnodes)
    (ks : List Node) : (collapseAt (index.holders chosen) t (cleaned (some root) index.definitions t ks)).map
        (Node.retag after.crossing) =
      collapseAt (index.holders chosen) (after.crossing t c).1
        (cleaned (some root) index.definitions (after.crossing t c).1 (ks.map (Node.retag after.crossing))) := by
  have blank := (keepsLayout_crossing after).blank
  have apart := h.root_apart top
  rw [collapseAt, collapseAt, crossing_place]
  by_cases held : t.place ∈ index.holders chosen
  · have below : ∀ u : Tag, u.place = t.place → some root ≠ some u := fun u place same =>
      apart (by rw [Option.some.inj same, place]; exact held)
    have carried : (fun n => !Node.carries (index.definitions.map (·.tag)) n) ∘ Node.retag after.crossing =
        fun n => !Node.carries (index.definitions.map (·.tag)) n := funext fun n => congrArg (!·) (h.carries_crossing n)
    rw [if_pos held, if_pos held, collapse_cleaned (below t rfl), collapse_cleaned (below _ (crossing_place t c)),
      collapseBlankLines_map blank, List.filter_map, carried]
  · obtain ⟨u, d, js, old, settled, -⟩ := Node.of_mem_retag member
    have place := place_of_settleAll settled
    have parent := h.parent_crossing old (by rw [place]; exact held)
    rw [settled] at parent
    rw [if_neg held, if_neg held]
    refine cleaned_map h.carries_crossing blank parent ⟨fun same => ?_, fun same => ?_⟩ ks
    · have alike : u.place = root.place := by
        rw [Option.some.inj same, crossing_place, place]
      obtain ⟨tag, children, rfl⟩ := h.document.root
      obtain rfl := Option.some.inj top
      have same := h.document.distinct.branch_inj old (Node.mem_subnodes_self _) alike
      obtain ⟨rfl, rfl, -⟩ := Node.branch.inj same
      rw [settleAll_of_not_isLink h.document.distinct (h.document.tracks h.all) old rfl] at settled
      rw [(Prod.mk.inj settled).1]
    · rw [← Option.some.inj same, h.crossing_root top]

end Inlined

/-! ### The runs -/

/-- A run over a document, and one over the document with some references written out. -/
structure SideBySide (tree : Node) (fresh : Nat) (index after : Index) (chosen : Tag → Bool)
    (positions : Tag → Option Position) (o o' : Outcome) (root : Tag) (ns ns' : List Node) : Prop where
  inlined : Inlined tree fresh index after chosen positions
  run : Transformed tree fresh index tree o root ns
  again : Transformed (tree.retag (index.inlining chosen positions)) fresh after
    (tree.retag (index.inlining chosen positions)) o' root ns'

namespace SideBySide

theorem root_tag? (h : SideBySide tree fresh index after chosen positions o o' root ns ns') :
    tree.tag? = some root := h.run.root_tag? h.inlined.document h.inlined.all

theorem root_apart (h : SideBySide tree fresh index after chosen positions o o' root ns ns') :
    root.place ∉ index.holders chosen := h.inlined.root_apart h.root_tag?

/-- What is left of the one document is what is left of the other, once it has been tidied up. -/
theorem left (h : SideBySide tree fresh index after chosen positions o o' root ns ns') :
    ns'.map (Node.tidyAt (index.holders chosen)) =
      (ns.map (Node.tidyAt (index.holders chosen))).map (Node.retag after.crossing) := by
  have together : ∀ n : Node, (n.rebuild (cleaned (some root) index.definitions)).tidyAt (index.holders chosen) =
      n.rebuild fun t ks => collapseAt (index.holders chosen) t (cleaned (some root) index.definitions t ks) :=
    Node.rebuild_rebuild fun t ks =>
      cleaned_map (Node.carries_rebuild _ _) (Node.rebuild_isBlankLine _) Iff.rfl Iff.rfl ks
  have whole : (Node.branch root .document ns').tidyAt (index.holders chosen) =
      ((Node.branch root .document ns).tidyAt (index.holders chosen)).retag after.crossing := by
    rw [h.again.left, h.run.left, h.inlined.cleaned_eq, together, together, h.inlined.retag_settled]
    exact (Node.retag_rebuild fun t c ms member => h.inlined.cleaned_crossing h.root_tag? member).symm
  rw [Node.tidyAt_branch h.root_apart, Node.tidyAt_branch h.root_apart, Node.retag_branch] at whole
  exact (Node.branch.inj whole).2.2

/-- A node calls for the same definition in both runs. -/
theorem newDefinition?_eq (h : SideBySide tree fresh index after chosen positions o o' root ns ns') {t t' : Tag}
    (inside : t ∈ ns.flatMap Node.tags) (inside' : t' ∈ ns'.flatMap Node.tags) (place : t'.place = t.place) :
    newDefinition? o'.index (Report.detect after) (.branch t' .document []) =
      newDefinition? o.index (Report.detect index) (.branch t .document []) := by
  have document := h.inlined.document
  have document' := h.inlined.document'
  have all := h.inlined.all
  have again := h.inlined.again
  apply Option.ext
  intro d
  rw [h.run.follows, h.again.follows, newDefinition?_eq_some_iff all (Tracks_nodup document.distinct (document.tracks all)),
    newDefinition?_eq_some_iff again (Tracks_nodup document'.distinct (document'.tracks again))]
  constructor
  · rintro ⟨r', old', tagged, target, sole, rfl⟩
    obtain ⟨r, old, own, -, identity⟩ := h.inlined.record_before old'
    refine ⟨r, old, ?_, target, ?_, ?_⟩
    · refine congrArg some (h.run.settled_tag document all inside old ?_)
      rw [← place, Option.some.inj tagged, settle_place, own]
    · rw [← sole, identity, h.inlined.soleTarget?]
    · rw [← all.idOf old, ← again.idOf old', h.inlined.idOf, identity]
  · rintro ⟨r, old, tagged, target, sole, rfl⟩
    obtain ⟨r', old', own, -, identity⟩ := h.inlined.record old
    refine ⟨r', old', ?_, target, ?_, ?_⟩
    · refine congrArg some (h.again.settled_tag document' again inside' old' ?_)
      rw [place, Option.some.inj tagged, settle_place, own]
    · rw [← sole, identity, h.inlined.soleTarget?]
    · rw [← all.idOf old, ← again.idOf old', h.inlined.idOf, identity]

theorem tags_left (h : SideBySide tree fresh index after chosen positions o o' root ns ns') {s : List Node}
    (among : s ∈ sections (ns.map (Node.tidyAt (index.holders chosen)))) {x : Sight} (seen : x ∈ s.flatMap Node.sights) :
    x.tag ∈ ns.flatMap Node.tags ∧ (x.retag after.crossing).tag ∈ ns'.flatMap Node.tags := by
  obtain ⟨n, inside, seen⟩ := List.mem_flatMap.mp seen
  have left : n ∈ ns.map (Node.tidyAt (index.holders chosen)) := by
    rw [← sections_flatten (ns.map _)]
    exact List.mem_flatten.mpr ⟨s, among, inside⟩
  have crossed := List.mem_map_of_mem (f := Node.retag after.crossing) left
  rw [← h.left] at crossed
  constructor
  · obtain ⟨m, old, rfl⟩ := List.mem_map.mp left
    refine List.mem_flatMap.mpr ⟨m, old, ?_⟩
    rw [← Node.tags_tidyAt]
    exact List.mem_map_of_mem seen
  · obtain ⟨m, old, same⟩ := List.mem_map.mp crossed
    refine List.mem_flatMap.mpr ⟨m, old, ?_⟩
    rw [← Node.tags_tidyAt, same, Node.tags, Node.sights_retag]
    exact List.mem_map_of_mem (List.mem_map_of_mem seen)

/-- The sections call for the same definitions in both runs. -/
theorem staged_eq (h : SideBySide tree fresh index after chosen positions o o' root ns ns') :
    staged o'.index (Report.detect after) [] (sections ns') = staged o.index (Report.detect index) [] (sections ns) := by
  have tidy := keepsLayout_tidyAt (index.holders chosen)
  calc
    staged o'.index (Report.detect after) [] (sections ns')
      = staged o'.index (Report.detect after) [] (sections ((ns.map (Node.tidyAt (index.holders chosen))).map
          (Node.retag after.crossing))) := by
        rw [← h.left, staged_map tidy fun n _ => Node.tags_tidyAt _ n]
    _ = staged o.index (Report.detect index) [] (sections (ns.map (Node.tidyAt (index.holders chosen)))) := by
        refine staged_congr ?_ []
        rw [← (keepsLayout_crossing after).sections, List.map_map]
        refine List.map_congr_left fun s among => ?_
        have tags : s.flatMap Node.tags = (s.flatMap Node.sights).map (·.tag) := List.map_flatMap.symm
        have tags' : (s.map (Node.retag after.crossing)).flatMap Node.tags =
            (s.flatMap Node.sights).map fun x => (x.retag after.crossing).tag := by
          rw [List.flatMap_map, List.map_flatMap]
          refine List.flatMap_congr fun n _ => ?_
          rw [Node.tags, Node.sights_retag, List.map_map]
          rfl
        rw [Function.comp_apply, calls_eq_tags, calls_eq_tags, tags, tags', List.filterMap_map, List.filterMap_map]
        refine List.filterMap_congr fun x seen => ?_
        obtain ⟨inside, inside'⟩ := h.tags_left among seen
        exact h.newDefinition?_eq inside inside' (retag_place crossing_place x)
    _ = staged o.index (Report.detect index) [] (sections ns) := staged_map tidy (fun n _ => Node.tags_tidyAt _ n) _ _

/-- Both runs end in one document, tidied up where links have been written out. -/
theorem document (h : SideBySide tree fresh index after chosen positions o o' root ns ns') :
    (o'.forest.document.tidyAt (index.holders chosen)).bare = (o.forest.document.tidyAt (index.holders chosen)).bare := by
  have tidied : ∀ (ms : List Node) (dss : List (List NewDefinition)),
      (Node.branch root .document (attachAll (sections ms) (numbered fresh dss)).flatten).tidyAt (index.holders chosen) =
        .branch root .document (attachAll (sections (ms.map (Node.tidyAt (index.holders chosen))))
          (numbered fresh dss)).flatten := fun ms dss => by
    rw [Node.tidyAt_branch h.root_apart, (keepsLayout_tidyAt _).placed fun _ _ _ => rfl]
  have crossed : o'.forest.document.tidyAt (index.holders chosen) =
      (o.forest.document.tidyAt (index.holders chosen)).retag after.crossing := by
    rw [h.again.document, h.run.document, h.staged_eq, tidied, tidied, h.left, Node.retag_branch,
      h.inlined.crossing_root h.root_tag?, (keepsLayout_crossing after).placed fun _ _ _ => rfl]
  rw [crossed, Node.bare_retag crossing_bare]

theorem conflicts (h : SideBySide tree fresh index after chosen positions o o' root ns ns') :
    o'.stats.conflicts = o.stats.conflicts := by
  rw [h.again.conflicts, h.run.conflicts, h.inlined.again.conflictsFound, h.inlined.all.conflictsFound, h.inlined.keys]
  simp only [h.inlined.destinations]

theorem added (h : SideBySide tree fresh index after chosen positions o o' root ns ns') :
    o'.stats.added = o.stats.added := by
  rw [h.again.added, h.run.added, h.staged_eq]

/-- A link that has been written out is converted unless it is in conflict. -/
theorem converted (h : SideBySide tree fresh index after chosen positions o o' root ns ns') :
    o'.stats.converted = o.stats.converted + index.links.countP fun r =>
      (index.inlined? chosen r).isSome && !(Report.detect index).isConflicting r.id := by
  have all := h.inlined.all
  have own : index.links.countP (converts (Report.detect index)) =
      index.links.countP fun r => !r.node.form.isReference && (index.destinations r.identity).length = 1 :=
    List.countP_congr fun r inside => by rw [converts_eq all inside]
  have crossed : after.links.countP (converts (Report.detect after)) =
      index.links.countP fun r => !(index.inlinedForm chosen r.node.tag r.node.form).isReference &&
        (index.destinations r.identity).length = 1 := by
    calc
      after.links.countP (converts (Report.detect after))
        = (after.links.map LinkRecord.text).countP fun x =>
            !x.1.2.isReference && (index.destinations x.2).length = 1 := by
          rw [List.countP_map]
          refine List.countP_congr fun r inside => ?_
          rw [converts_eq h.inlined.again inside, h.inlined.destinations]
          rfl
      _ = _ := by
          rw [h.inlined.texts, List.countP_map]
          rfl
  rw [h.again.converted, h.run.converted, own, crossed]
  refine countP_add fun r inside => ?_
  rw [Index.inlinedForm, inlinedAt?_record h.inlined.document.distinct (h.inlined.document.tracks all) inside,
    all.isConflicting inside]
  cases written : index.inlined? chosen r with
  | none => simp
  | some target =>
    obtain ⟨reference, lead⟩ := resolve_of_inlined? written
    have member := Index.mem_destinations.mpr ⟨r, inside, rfl, congrArg Prod.fst lead⟩
    have filled := List.length_pos_of_mem member
    have sole : decide ((index.destinations r.identity).length = 1) =
        !decide (1 < (index.destinations r.identity).length) := by
      rw [← decide_not]
      exact decide_eq_decide.mpr (by omega)
    have inline : (LinkForm.inline target).isReference = false := rfl
    simp only [reference, inline, sole, Option.isSome_some, Bool.not_false, Bool.not_true, Bool.true_and,
      Bool.false_and, Bool.false_eq_true, if_false, Nat.zero_add]

end SideBySide

/-- Two runs, the second over the document of the first with some references written out: the same conflicts and new
definitions, one conversion more for each link that has been written out and is not in conflict, and the same document
up to positions, but for blank lines where written out links have held definitions. -/
structure SameResult (index : Index) (chosen : Tag → Bool) (o o' : Outcome) : Prop where
  conflicts : o'.stats.conflicts = o.stats.conflicts
  added : o'.stats.added = o.stats.added
  converted : o'.stats.converted = o.stats.converted + index.links.countP fun r =>
    (index.inlined? chosen r).isSome && !(Report.detect index).isConflicting r.id
  tidied : (o'.forest.document.tidyAt (index.holders chosen)).bare =
    (o.forest.document.tidyAt (index.holders chosen)).bare
  document : index.holders chosen = [] → o'.forest.document.bare = o.forest.document.bare ∧
    o'.forest.document.render = o.forest.document.render

theorem SideBySide.sameResult (h : SideBySide tree fresh index after chosen positions o o' root ns ns') :
    SameResult index chosen o o' := by
  refine ⟨h.conflicts, h.added, h.converted, h.document, fun vacant => ?_⟩
  have same := h.document
  rw [vacant, Node.tidyAt_nil, Node.tidyAt_nil] at same
  exact ⟨same, Node.render_congr same⟩

/-- If no link stands below another, it does not matter whether references that lead somewhere are written out, but for
blank lines that definitions in their texts leave behind. Where no definition stands in the text of a link, it does not
matter at all. -/
theorem transform_written_out (next : Nat) (tag : Tag) (children : List Node) (chosen : Tag → Bool)
    (positions : Tag → Option Position) :
    let (tree, fresh) := Node.number next (.branch tag .document children)
    match Index.empty.collect tree with
    | .error e => tree.transform fresh none = .error e
    | .ok index => tree.unnested → (tree.flat → index.holders chosen = []) ∧
      ∃ o o', tree.transform fresh none = .ok o ∧
        (tree.retag (index.inlining chosen positions)).transform fresh none = .ok o' ∧ SameResult index chosen o o' := by
  have document := documentTree_number next tag children
  generalize Node.number next (.branch tag .document children) = numbered at document
  obtain ⟨tree, fresh⟩ := numbered
  dsimp only at document ⊢
  cases collect : Index.empty.collect tree with
  | error e => exact transform_error none collect
  | ok index =>
    intro unnested
    obtain ⟨after, collect'⟩ := collect_inlined document collect chosen positions
    have inlined : Inlined tree fresh index after chosen positions :=
      ⟨document, Index.collected collect, unnested, Index.collected collect'⟩
    obtain ⟨f, _, o, root, ns, within, done, run⟩ := transform_ok document none collect
    obtain ⟨f', _, o', root', ns', within', done', again⟩ := transform_ok inlined.document' none collect'
    obtain ⟨rfl, -⟩ := Prod.mk.inj (Except.ok.inj within)
    obtain ⟨rfl, -⟩ := Prod.mk.inj (Except.ok.inj within')
    have top := run.root_tag? document inlined.all
    have top' := again.root_tag? inlined.document' inlined.again
    obtain rfl : root = root' := by
      obtain ⟨tag, children, rfl⟩ := document.root
      rw [Node.retag_branch, Node.tag?, inlining_place] at top'
      exact Option.some.inj (top.symm.trans top')
    exact ⟨inlined.holders_of_flat, o, o', done, done', SideBySide.sameResult ⟨inlined, run, again⟩⟩

/-- A document with a reference that leads to a definition, one in conflict, and the definitions. -/
def mixedReferences : List Node :=
  [.fresh .paragraph [
      .fresh (.link (.reference "x".toList .full) none) [.leaf (.text "a".toList)],
      .fresh (.link (.inline ⟨"w".toList, none⟩) none) [.leaf (.text "b".toList)],
      .fresh (.link (.reference "Y".toList .full) none) [.leaf (.text "b".toList)]],
    .leaf .blankLine,
    .definition ⟨0, 0⟩ "x".toList ⟨"u".toList, some "t".toList⟩,
    .definition ⟨0, 0⟩ "y".toList ⟨"v".toList, none⟩]

theorem mixedReferences_written_out : let (tree, fresh) := Node.number 0 (.branch ⟨0, 0⟩ .document mixedReferences)
    ∃ index, Index.empty.collect tree = .ok index ∧ tree.unnested ∧ tree.flat ∧ index.holders (fun _ => true) = [] ∧
      ∃ o o', tree.transform fresh none = .ok o ∧
        (tree.retag (index.inlining (fun _ => true) fun _ => none)).transform fresh none = .ok o' ∧
        SameResult index (fun _ => true) o o' := by
  have same := transform_written_out 0 ⟨0, 0⟩ mixedReferences (fun _ => true) fun _ => none
  have checked : (Index.empty.collect (Node.number 0 (.branch ⟨0, 0⟩ .document mixedReferences)).1).toOption.any
      (fun _ => (Node.number 0 (.branch ⟨0, 0⟩ .document mixedReferences)).1.flat) = true := by decide +kernel
  obtain ⟨index, collect, flat⟩ := exists_ok_of_any checked
  have unnested := Node.unnested_of_flat flat
  dsimp only at same ⊢
  rw [collect] at same ⊢
  obtain ⟨free, outcomes⟩ := same unnested
  exact ⟨index, rfl, unnested, flat, free flat, outcomes⟩

/-- A document with a reference in whose text its definition stands, between blank lines. -/
def definitionInReference : Node :=
  .branch ⟨0, 0⟩ .document [.branch ⟨1, 0⟩ .paragraph [.branch ⟨2, 0⟩ (.link (.reference "x".toList .shortcut) none)
    [.leaf (.text "a".toList), .leaf .blankLine, .definition ⟨3, 0⟩ "x".toList ⟨"v".toList, none⟩, .leaf .blankLine]]]

/-- The reference is tidied up after it has lost the definition. Written out it is replaced, and keeps both lines. -/
theorem definitionInReference_written_out : definitionInReference.unnested ∧
    ∃ index o o', Index.empty.collect definitionInReference = .ok index ∧
      definitionInReference.transform 4 none = .ok o ∧
      (definitionInReference.retag (index.inlining (fun _ => true) fun _ => none)).transform 4 none = .ok o' ∧
      o.forest.document.render = .ok "[a\n]\n\n[a [x]: v]: v\n".toList ∧
      o'.forest.document.render = .ok "[a\n\n]\n\n[a [x]: v]: v\n".toList ∧
      o'.forest.document.bare ≠ o.forest.document.bare := by
  have checked : (Index.empty.collect definitionInReference).toOption.any (fun index => definitionInReference.unnested ∧
      (definitionInReference.transform 4 none).toOption.any (fun o =>
        o.forest.document.render = .ok "[a\n]\n\n[a [x]: v]: v\n".toList) ∧
      ((definitionInReference.retag (index.inlining (fun _ => true) fun _ => none)).transform 4 none).toOption.any
        fun o => o.forest.document.render = .ok "[a\n\n]\n\n[a [x]: v]: v\n".toList) = true := by decide +kernel
  obtain ⟨index, collect, facts⟩ := exists_ok_of_any checked
  obtain ⟨unnested, once, again⟩ := of_decide_eq_true facts
  obtain ⟨o, done, first⟩ := exists_ok_of_any once
  obtain ⟨o', done', second⟩ := exists_ok_of_any again
  refine ⟨unnested, index, o, o', collect, done, done', of_decide_eq_true first, of_decide_eq_true second, ?_⟩
  intro same
  have alike := (Node.render_congr same).symm.trans (of_decide_eq_true second)
  rw [of_decide_eq_true first] at alike
  revert alike
  decide +kernel

end MarkdownLinks
