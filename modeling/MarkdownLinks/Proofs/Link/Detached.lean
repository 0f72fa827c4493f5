import MarkdownLinks.Proofs.Link.Rewritten

/-!
Documents with detached records. Links that would have to be replaced and definitions stay where they are if their records
name parents that do not hold them; all else becomes of the document that would have become of it anyway.
-/

namespace MarkdownLinks

open Rewriting

variable {tree : Node} {fresh : Nat} {index : Index} {lost : Tag → Option Parent} {r : LinkRecord} {seen : List Visit}

/-! ### What becomes of the document -/

/-- Whether a link stays as it is: detached, and inline or of an identity in conflict. -/
def Index.stuck (index : Index) (lost : Tag → Option Parent) (r : LinkRecord) : Bool :=
  (lost r.node.tag).isSome && (!r.node.form.isReference || 1 < (index.destinations r.identity).length)

/-- What becomes of a branch when detached links stay as they are. -/
def Index.rewriteAttached (index : Index) (lost : Tag → Option Parent) (t : Tag) (c : Container) : Tag × Container :=
  if (index.links.find? (·.node.tag = t)).any (index.stuck lost) then (t, c) else index.rewriteBranch t c

theorem skips_eq_stuck (all : index.Collected seen) (inside : r ∈ index.links) :
    skips (Report.detect index) lost r = index.stuck lost r := by
  rw [skips, all.isConflicting inside, Index.stuck]

theorem find?_filter_of_nodup {α κ : Type} [DecidableEq κ] {key : α → κ} {as : List α} (nodup : (as.map key).Nodup)
    (p : α → Bool) (k : κ) : (as.filter p).find? (key · = k) = (as.find? (key · = k)).filter p := by
  induction as with
  | nil => rfl
  | cons a as ih =>
    obtain ⟨absent, nodup⟩ := List.nodup_cons.mp nodup
    have later := ih nodup
    by_cases own : key a = k
    · have unknown : as.find? (key · = k) = none := List.find?_eq_none.mpr fun b inside same =>
        absent (own.trans (of_decide_eq_true same).symm ▸ List.mem_map_of_mem inside)
      rw [unknown] at later
      cases keep : p a <;> simp [keep, own, later, Option.filter_some]
    · cases keep : p a <;> simp [keep, own, later]

theorem relink_attached (document : DocumentTree tree fresh) (all : index.Collected tree.walk) :
    relink (Report.detect index) index (index.links.filter (!skips (Report.detect index) lost ·)) =
      index.rewriteAttached lost := by
  funext t c
  have nodup : (index.links.map (·.node.tag)).Nodup := by
    refine List.Nodup.of_map Tag.place ?_
    rw [List.map_map]
    exact Tracks_nodup document.distinct (document.tracks all)
  rw [relink, find?_filter_of_nodup nodup, Index.rewriteAttached, Index.rewriteBranch]
  cases found : index.links.find? (·.node.tag = t) with
  | none => rfl
  | some r =>
    have inside := List.mem_of_find?_eq_some found
    rw [Option.any_some, ← skips_eq_stuck all inside, Option.filter_some]
    cases skips (Report.detect index) lost r with
    | true => rfl
    | false =>
      simp only [Bool.not_false, if_true, Bool.false_eq_true, if_false, settle_eq_rewritten all inside]

theorem rewriteAttached_cases (all : index.Collected tree.walk) (t : Tag) (c : Container) :
    index.rewriteAttached lost t c = (t, c) ∨ index.rewriteAttached lost t c = settleAll index t c := by
  rw [settleAll_eq_rewriteBranch all, Index.rewriteAttached]
  split
  · exact Or.inl rfl
  · exact Or.inr rfl

theorem rewriteAttached_place (lost : Tag → Option Parent) (all : index.Collected tree.walk) (t : Tag) (c : Container) :
    (index.rewriteAttached lost t c).1.place = t.place := by
  rcases rewriteAttached_cases all t c with same | same <;> rw [same]
  exact settleAll_place t c

/-! ### Definitions -/

theorem Forest.Sole.unheld_without {f : Forest} (sole : f.Sole) {gone : List Tag}
    (distinct : (f.document.without gone).Distinct) {tag : Tag} {parent : Parent} (unheld : f.holds parent tag = false) :
    Forest.holds { f with document := f.document.without gone } parent tag = false := by
  refine sole.unheld (g := { f with document := f.document.without gone }) ⟨sole.alone, distinct⟩
    (fun t c ms member child => ?_) unheld
  obtain ⟨ns, old, rfl⟩ := Node.of_mem_rebuild (fun _ _ _ inside => Or.inl (List.mem_filter.mp inside).1) member
  obtain ⟨m, inside, tagged⟩ := child
  obtain ⟨n, among, rfl⟩ := List.mem_map.mp (List.mem_filter.mp inside).1
  exact ⟨t, c, ns, old, rfl, n, among, (Node.rebuild_tag? _ n).symm.trans tagged⟩

/-- A definition that its parent does not hold is left alone. -/
theorem dropDefinition_of_unheld {f : Forest} {d : DefinitionRecord} (unheld : f.holds d.parent d.tag = false)
    (parents : List (Tag × Container)) : dropDefinition (f, parents) d = (f, parents) := by
  simp only [dropDefinition]
  split
  · rw [unheld]
    rfl
  · rfl

/-- Detached definitions are passed over, whatever has gone before them. -/
theorem dropDefinitions_attached {records : List DefinitionRecord} {f : Forest} (sole : f.Sole)
    (tracks : TracksDefinitions (records.filter fun d => (lost d.tag).isNone) f.document)
    (unheld : ∀ d ∈ records, ∀ p, lost d.tag = some p → f.holds p d.tag = false) (parents : List (Tag × Container)) :
    (records.map (·.detach lost)).foldl dropDefinition (f, parents) =
      (records.filter fun d => (lost d.tag).isNone).foldl dropDefinition (f, parents) := by
  induction records generalizing f parents with
  | nil => rfl
  | cons d records ih =>
    rw [List.map_cons, List.foldl_cons]
    -- Only a record that is not detached changes the forest, and then the rest must be unheld in what is left of it.
    cases detached : lost d.tag with
    | some p =>
      rw [List.filter_cons_of_neg (by simp [detached])] at tracks ⊢
      rw [dropDefinition_of_unheld]
      · exact ih sole tracks (fun e inside => unheld e (List.mem_cons_of_mem _ inside)) parents
      · change f.holds ((lost d.tag).getD d.parent) d.tag = false
        rw [detached]
        exact unheld d List.mem_cons_self p detached
    | none =>
      rw [List.filter_cons_of_pos (by simp [detached])] at tracks ⊢
      obtain ⟨parents', dropped, -⟩ := dropDefinition_eq sole tracks parents
      have distinct : (f.document.without [d.tag]).Distinct := tracks.head.distinct_without sole.distinct
      have after : Forest.Sole { f with document := f.document.without [d.tag] } := ⟨sole.alone, distinct⟩
      rw [DefinitionRecord.detach_of_none detached, List.foldl_cons, dropped]
      exact ih after (tracks.tail sole.distinct) (fun e inside p other =>
        sole.unheld_without distinct (unheld e (List.mem_cons_of_mem _ inside) p other)) parents'

theorem removeDefinitions_attached {f : Forest} {g : Index} (sole : f.Sole)
    (tracks : TracksDefinitions index.definitions f.document)
    (unheld : ∀ d ∈ index.definitions, ∀ p, lost d.tag = some p → f.holds p d.tag = false)
    (definitions : g.definitions = index.definitions.map (·.detach lost)) :
    removeDefinitions f g =
      removeDefinitions f { g with definitions := index.definitions.filter fun d => (lost d.tag).isNone } := by
  unfold removeDefinitions dropDefinitions
  rw [definitions, dropDefinitions_attached sole (tracks.filter _) unheld]

/-- Attaching definitions under new tags leaves the old nodes where they are. -/
theorem sights_attached {root : Tag} {ns : List Node} {dss : List (List NewDefinition)}
    (old : ∀ s ∈ (Node.branch root .document ns).sights, s.tag.place < fresh) (same : dss.length = (sections ns).length) :
    (Node.branch root .document (attachAll (sections ns) (numbered fresh dss)).flatten).sights.filter
      (·.tag.place < fresh) = (Node.branch root .document ns).sights := by
  rw [Node.sights_branch, Node.sights_branch] at *
  have top : root.place < fresh := old _ List.mem_cons_self
  have kept : ∀ n ∈ ns, (n.sightsFrom (.branch root .document)).filter (·.tag.place < fresh) =
      n.sightsFrom (.branch root .document) := fun n inside => List.filter_eq_self.mpr fun s seen =>
    decide_eq_true (old s (List.mem_cons_of_mem _ (List.mem_flatMap.mpr ⟨n, inside, seen⟩)))
  have new : ∀ n ∈ (numbered fresh dss).flatten,
      (n.sightsFrom (.branch root .document)).filter (·.tag.place < fresh) = [] := by
    intro n inside
    refine List.filter_eq_nil_iff.mpr fun s seen => ?_
    have tag : s.tag ∈ (numbered fresh dss).flatten.flatMap Node.tags := by
      refine List.mem_flatMap.mpr ⟨n, inside, ?_⟩
      rw [← Node.sightsFrom_tags (.branch root .document)]
      exact List.mem_map_of_mem seen
    rw [numbered_tags, Node.freshTags] at tag
    obtain ⟨place, inRange, own⟩ := List.mem_map.mp tag
    rw [← own]
    simpa using (List.mem_range'_1.mp inRange).1
  rw [List.filter_cons_of_pos (by simpa using top), List.filter_flatMap]
  congr 1
  rw [attachAll_flatMap_old (fun n blank => by rw [sightsFrom_of_isBlankLine blank]; rfl)
    (by rw [numbered_length, same]) new, sections_flatten]
  exact List.flatMap_congr kept

theorem rewriteAttached_alike (document : DocumentTree tree fresh) (all : index.Collected tree.walk) (t : Tag)
    (c : Container) (ns : List Node) (member : .branch t c ns ∈ tree.subnodes) :
    Node.Alike c (index.rewriteAttached lost t c).2 := by
  rcases rewriteAttached_cases all t c with same | same <;> rw [same]
  · exact Or.inl rfl
  · exact settleAll_alike document.distinct (document.tracks all) t c ns member

/-- After placing, the old nodes are left but for the definitions that are not detached. -/
theorem placed_attached (document : DocumentTree tree fresh) (all : index.Collected tree.walk)
    (unheld : ∀ t p, lost t = some p → (Forest.ofDocument tree fresh).holds p t = false) (report : Report) {g : Index}
    (definitions : g.definitions = index.definitions.map (·.detach lost)) :
    (placeDefinitions (Forest.ofDocument (tree.retag (index.rewriteAttached lost)) fresh) g
      report).forest.document.sights.filter (·.tag.place < fresh) =
      (tree.sights.filter fun s => !s.isDefinition || (lost s.tag).isSome).map
        (Sight.retag (index.rewriteAttached lost)) := by
  have places := rewriteAttached_place lost all
  have whole : (Forest.ofDocument tree fresh).Sole := ⟨rfl, document.distinct⟩
  have sole : (Forest.ofDocument (tree.retag (index.rewriteAttached lost)) fresh).Sole :=
    ⟨rfl, document.distinct.retag places⟩
  have retagged := Node.sights_retag (index.rewriteAttached lost) tree
  have tracks := document.tracksDefinitions all places retagged
  have apart : ∀ d ∈ index.definitions, ∀ p, lost d.tag = some p →
      (Forest.ofDocument (tree.retag (index.rewriteAttached lost)) fresh).holds p d.tag = false := by
    intro d inside p detached
    rw [all.definitions_eq] at inside
    obtain ⟨s, seen, shown⟩ := List.mem_filterMap.mp inside
    have known : d.tag ∈ tree.tags := (definition?_eq_some shown).1 ▸ List.mem_map_of_mem seen
    exact whole.unheld_retag places known (unheld d.tag p detached)
  -- Removing goes as it would with the records that are not detached and no others.
  have removed := removeDefinitions_attached sole tracks apart definitions
  have kept := tracks.filter fun d => (lost d.tag).isNone
  have sights := (@removeDefinitions_sights { g with definitions := _ } _ sole kept).trans
    ((congrArg (List.filter _) retagged).trans (document.sights_removed all places fun t => (lost t).isNone))
  have unused := (@removeDefinitions_eq { g with definitions := _ } _ sole kept).2
  rw [← removed] at sights unused
  simp only [Bool.not_and, Option.not_isNone] at sights
  obtain ⟨root, ns, same⟩ := document.root_stays (rewriteAttached_alike document all) (by simp +contextual) sights
  have old : ∀ s ∈ (Node.branch root .document ns).sights, s.tag.place < fresh := by
    rw [← same, sights]
    intro s inside
    obtain ⟨s', seen, rfl⟩ := List.mem_map.mp inside
    rw [retag_place places]
    exact document.bound _ (List.mem_map_of_mem (List.mem_of_mem_filter seen))
  obtain ⟨-, -, final⟩ := placeDefinitions_eq _ g report same unused
  rw [final]
  exact (sights_attached old (staged_length [] _)).trans (same ▸ sights)

/-! ### All together -/

/-- What the passes make of a document when some records are detached. `whole` is what rewriting makes of it without that and
`w` what it makes of it now; `left` is the document after definitions have been placed. -/
structure DetachedSkipped (tree : Node) (fresh : Nat) (index : Index) (lost : Tag → Option Parent) (whole w : Rewriting)
    (left : Node) : Prop where
  forest : w.forest = Forest.ofDocument (tree.retag (index.rewriteAttached lost)) fresh
  nodes : ∀ (i : Nat) r, index.links[i]? = some r → ∃ q q', whole.index.links[i]? = some q ∧
    w.index.links[i]? = some q' ∧ q'.node = if index.stuck lost r then r.node else q.node
  converted : w.converted + index.links.countP (fun r =>
    (lost r.node.tag).isSome && !r.node.form.isReference && (index.destinations r.identity).length = 1) = whole.converted
  sights : left.sights.filter (·.tag.place < fresh) =
    (tree.sights.filter fun s => !s.isDefinition || (lost s.tag).isSome).map (Sight.retag (index.rewriteAttached lost))
  slots : ∀ q ∈ w.index.links, ∃ ns, .branch q.node.tag (.link q.node.form q.node.position) ns ∈ left.subnodes
  definitions : ∀ tag label target, .definition tag label target ∈ tree.subnodes →
    (.definition tag label target ∈ left.subnodes ↔ (lost tag).isSome)

theorem run_detached (document : DocumentTree tree fresh) (all : index.Collected tree.walk) (converted : Nat)
    (unheld : ∀ t p, lost t = some p → (Forest.ofDocument tree fresh).holds p t = false) :
    (Rewriting.mk (Forest.ofDocument tree fresh) (index.detach lost) converted).run (Report.detect index) =
      ⟨Forest.ofDocument (tree.retag (index.rewriteAttached lost)) fresh,
        { index.detach lost with links := index.links.map (passRecord (Report.detect index) index lost) },
        converted + index.links.countP fun r => converts (Report.detect index) r && (lost r.node.tag).isNone⟩ := by
  have ran := run_passing (Report.detect index) ⟨Forest.ofDocument tree fresh, index, converted⟩ lost
    ⟨rfl, document.distinct⟩ (document.tracks all) unheld
  refine ran.trans ?_
  simp [passing, settledForest, Forest.ofDocument, relink_attached document all]

theorem countP_detached (all : index.Collected seen) :
    index.links.countP (fun r => converts (Report.detect index) r && (lost r.node.tag).isNone) +
      index.links.countP (fun r =>
        (lost r.node.tag).isSome && !r.node.form.isReference && (index.destinations r.identity).length = 1) =
      index.links.countP (converts (Report.detect index)) := by
  rw [List.countP_eq_countP_filter_add index.links (converts (Report.detect index)) fun r => (lost r.node.tag).isNone,
    List.countP_filter, List.countP_filter]
  congr 1
  refine List.countP_congr fun r inside => ?_
  rw [converts_eq all inside]
  cases lost r.node.tag <;> simp

theorem passRecord_node (all : index.Collected seen) (inside : r ∈ index.links) :
    (passRecord (Report.detect index) index lost r).node = if index.stuck lost r then r.node else index.rewritten r := by
  rw [← skips_eq_stuck all inside, ← settle_eq_rewritten all inside]
  rfl

/-- The node of a record stands where the link was. -/
theorem rewriteAttached_record (document : DocumentTree tree fresh) (all : index.Collected tree.walk)
    (inside : r ∈ index.links) (lost : Tag → Option Parent) :
    let node := (passRecord (Report.detect index) index lost r).node
    index.rewriteAttached lost r.node.tag (.link r.node.form r.node.position) =
      (node.tag, .link node.form node.position) := by
  have found := find?_record document.distinct (document.tracks all) inside
  dsimp only
  rw [passRecord_node all inside, Index.rewriteAttached, Index.rewriteBranch, found, Option.any_some]
  split <;> rfl

/-- A recorded link is left under the node that its record has come to hold. -/
theorem link_left (document : DocumentTree tree fresh) (all : index.Collected tree.walk) (inside : r ∈ index.links)
    {left : Node} (sights : left.sights.filter (·.tag.place < fresh) =
      (tree.sights.filter fun s => !s.isDefinition || (lost s.tag).isSome).map
        (Sight.retag (index.rewriteAttached lost))) :
    let node := (passRecord (Report.detect index) index lost r).node
    ∃ ns, .branch node.tag (.link node.form node.position) ns ∈ left.subnodes := by
  have seen := all.sights.subset (List.mem_map_of_mem inside)
  have kept : r.sight.retag (index.rewriteAttached lost) ∈ left.sights.filter (·.tag.place < fresh) := by
    rw [sights]
    exact List.mem_map_of_mem (List.mem_filter.mpr ⟨seen, rfl⟩)
  have shape := rewriteAttached_record document all inside lost
  dsimp only at shape ⊢
  rw [LinkRecord.sight, Sight.retag] at kept
  simp only [shape] at kept
  rcases Node.face_of_mem_sightsFrom (List.mem_of_mem_filter kept) with ⟨_, _, face, -⟩ | ⟨c, ns, face, member⟩
  · cases face
  · obtain rfl := Face.branch.inj face
    exact ⟨ns, member⟩

/-- Of the definitions that were there, the detached ones are left. -/
theorem definition_left_iff (document : DocumentTree tree fresh) {φ : Tag → Container → Tag × Container} {left : Node}
    (sights : left.sights.filter (·.tag.place < fresh) =
      (tree.sights.filter fun s => !s.isDefinition || (lost s.tag).isSome).map (Sight.retag φ))
    {tag : Tag} {label : Text} {target : Target} (old : .definition tag label target ∈ tree.subnodes) :
    .definition tag label target ∈ left.subnodes ↔ (lost tag).isSome := by
  rw [Node.mem_subnodes_definition_iff] at old ⊢
  obtain ⟨parent, seen⟩ := old
  have bound : tag.place < fresh := document.bound tag (List.mem_map_of_mem seen)
  constructor
  · rintro ⟨parent', visible⟩
    have kept : _ ∈ left.sights.filter (·.tag.place < fresh) := List.mem_filter.mpr ⟨visible, decide_eq_true bound⟩
    rw [sights] at kept
    obtain ⟨⟨t, face, above⟩, inside, same⟩ := List.mem_map.mp kept
    cases face with
    | definition l u =>
      obtain ⟨rfl, -, -⟩ := Sight.mk.inj same
      simpa [Sight.isDefinition] using (List.mem_filter.mp inside).2
    | branch container => cases (Sight.mk.inj same).2.1
  · intro detached
    refine ⟨parent.retag φ, List.mem_of_mem_filter (p := (·.tag.place < fresh)) ?_⟩
    rw [sights]
    exact List.mem_map.mpr ⟨_, List.mem_filter.mpr ⟨seen, by rw [detached, Bool.or_true]⟩, rfl⟩

/-- Detached records are passed over: the nodes of inline links and of references in conflict stay in their slots and are
not counted, the definitions stay, and all else is as if the records were not detached. -/
theorem detached_skipped (next : Nat) (tag : Tag) (children : List Node) (strangers converted : Nat) :
    let (tree, bound) := Node.number next (.branch tag .document children)
    let fresh := bound + strangers
    match Index.empty.collect tree with
    | .error _ => tree.collectable = false
    | .ok index => ∀ lost : Tag → Option Parent,
      (∀ t p, lost t = some p → (Forest.ofDocument tree fresh).holds p t = false) →
      let report := Report.detect index
      let whole := (Rewriting.mk (Forest.ofDocument tree fresh) index converted).run report
      let w := (Rewriting.mk (Forest.ofDocument tree fresh) (index.detach lost) converted).run report
      Report.detect (index.detach lost) = report ∧
        DetachedSkipped tree fresh index lost whole w (placeDefinitions w.forest w.index report).forest.document := by
  have numbered := documentTree_number next tag children
  generalize Node.number next (.branch tag .document children) = made at numbered
  obtain ⟨tree, bound⟩ := made
  dsimp only at numbered ⊢
  have document : DocumentTree tree (bound + strangers) :=
    ⟨numbered.distinct, fun t member => (numbered.bound t member).trans_le (Nat.le_add_right _ _), numbered.root⟩
  cases collect : Index.empty.collect tree with
  | error e =>
    rw [← Node.collect_isOk Index.empty, collect]
    rfl
  | ok index =>
    intro lost unheld
    have all := Index.collected collect
    have ran := run_settled document all converted
    have passed := run_detached document all converted unheld
    have left := placed_attached document all unheld (Report.detect index)
      (g := { index.detach lost with links := index.links.map (passRecord (Report.detect index) index lost) }) rfl
    rw [ran, passed]
    refine ⟨Report.detect_detach lost index, rfl, fun i r slot => ?_, ?_, left, fun q recorded => ?_, ?_⟩
    · refine ⟨settleRecord (Report.detect index) index r, passRecord (Report.detect index) index lost r, ?_, ?_, ?_⟩
      · simp [settledIndex, slot]
      · simp [slot]
      · rw [passRecord_node all (List.mem_of_getElem? slot), settleRecord,
          settle_eq_rewritten all (List.mem_of_getElem? slot)]
    · rw [Nat.add_assoc, countP_detached all]
    · obtain ⟨r, inside, rfl⟩ := List.mem_map.mp recorded
      exact link_left document all inside left
    · exact fun tag label target old => definition_left_iff document left old

/-- The children of a document with a link around another one, a reference in conflict, and two definitions. -/
def looseLinks : List Node :=
  [.fresh .paragraph [.fresh (.link (.inline ⟨"u".toList, none⟩) none)
      [.leaf (.text "a".toList), .fresh (.link (.inline ⟨"v".toList, none⟩) none) [.leaf (.text "b".toList)]]],
    .fresh .paragraph [.fresh (.link (.reference "x".toList .full) none) [.leaf (.text "c".toList)],
      .fresh (.link (.inline ⟨"w".toList, none⟩) none) [.leaf (.text "c".toList)],
      .fresh (.link (.reference "y".toList .full) none) [.leaf (.text "d".toList)]],
    .definition ⟨0, 0⟩ "x".toList ⟨"u".toList, none⟩,
    .definition ⟨0, 0⟩ "y".toList ⟨"v".toList, none⟩]

/-- The outer link takes no parent, the reference in conflict the other paragraph, the other reference a text, and the first
definition a stranger. -/
def looseParents : List (Tag × Parent) :=
  [(⟨2, 0⟩, .none), (⟨5, 0⟩, .branch ⟨1, 0⟩ .paragraph), (⟨7, 0⟩, .leaf), (⟨8, 0⟩, .branch ⟨10, 0⟩ .paragraph)]

theorem looseLinks_skipped : let (tree, bound) := Node.number 0 (.branch ⟨0, 0⟩ .document looseLinks)
    let fresh := bound + 1
    let lost (t : Tag) := looseParents.lookup t
    ∃ index, Index.empty.collect tree = .ok index ∧
      (∀ t p, lost t = some p → (Forest.ofDocument tree fresh).holds p t = false) ∧
      let report := Report.detect index
      let whole := (Rewriting.mk (Forest.ofDocument tree fresh) index 0).run report
      let w := (Rewriting.mk (Forest.ofDocument tree fresh) (index.detach lost) 0).run report
      Report.detect (index.detach lost) = report ∧
        DetachedSkipped tree fresh index lost whole w (placeDefinitions w.forest w.index report).forest.document := by
  have skipped := detached_skipped 0 ⟨0, 0⟩ looseLinks 1 0
  have checked : (Index.empty.collect (Node.number 0 (.branch ⟨0, 0⟩ .document looseLinks)).1).toOption.any
      (fun _ => looseParents.all fun (t, p) => !(Forest.ofDocument (Node.number 0 (.branch ⟨0, 0⟩ .document looseLinks)).1
        ((Node.number 0 (.branch ⟨0, 0⟩ .document looseLinks)).2 + 1)).holds p t) = true := by
    decide +kernel
  obtain ⟨index, collect, unheld⟩ := exists_ok_of_any checked
  have apart : ∀ t p, looseParents.lookup t = some p →
      (Forest.ofDocument (Node.number 0 (.branch ⟨0, 0⟩ .document looseLinks)).1
        ((Node.number 0 (.branch ⟨0, 0⟩ .document looseLinks)).2 + 1)).holds p t = false := by
    intro t p found
    simpa using List.all_eq_true.mp unheld (t, p) (mem_of_lookup_eq_some found)
  dsimp only at skipped ⊢
  rw [collect] at skipped
  exact ⟨index, collect, apart, skipped (fun t => looseParents.lookup t) apart⟩

end MarkdownLinks
