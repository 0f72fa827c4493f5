import MarkdownLinks.Link.Transform
import MarkdownLinks.Proofs.Link.Place
import MarkdownLinks.Proofs.Link.Reflow
import MarkdownLinks.Proofs.Link.Run

/-!
What one run does to a document: `Transformed` describes the final trees by the sights of the document that was
given, the passes in between left out. A run fails only if the links cannot be collected.
-/

namespace MarkdownLinks

open Rewriting

variable {tree : Node} {fresh : Nat} {index : Index}

/-- A document whose nodes have different places below a bound. -/
structure DocumentTree (tree : Node) (fresh : Nat) : Prop where
  distinct : tree.Distinct
  bound : ∀ tag ∈ tree.tags, tag.place < fresh
  root : ∃ tag children, tree = .branch tag .document children

theorem documentTree_number (next : Nat) (tag : Tag) (children : List Node) :
    DocumentTree (Node.number next (.branch tag .document children)).1
      (Node.number next (.branch tag .document children)).2 :=
  ⟨Node.distinct_number _ _, fun _ member => Node.place_lt_of_mem_number member, _, _, rfl⟩

theorem documentTree_parseFrom (next : Nat) (t : Text) :
    DocumentTree (Document.parseFrom next t).1 (Document.parseFrom next t).2 := by
  unfold Document.parseFrom
  generalize Block.readDocument (Document.sourceText t) = read
  obtain ⟨blocks, targets⟩ := read
  exact documentTree_number next ⟨0, 0⟩ _

theorem parent_below {ns : List Node} {tag : Tag} {container : Container} {s : Sight}
    (seen : s ∈ ns.flatMap (Node.sightsFrom (.branch tag container))) : ∃ t c, s.parent = .branch t c := by
  obtain ⟨n, -, seen⟩ := List.mem_flatMap.mp seen
  rcases Node.parent_of_mem_sightsFrom seen with ⟨-, same⟩ | ⟨t, c, _, same, -⟩
  · exact ⟨tag, container, same⟩
  · exact ⟨t, c, same⟩

namespace DocumentTree

theorem below (document : DocumentTree tree fresh) {s : Sight} (seen : s ∈ tree.sights)
    (other : s.face ≠ .branch .document) : ∃ t c, s.parent = .branch t c := by
  obtain ⟨tag, children, rfl⟩ := document.root
  rw [Node.sights_branch] at seen
  rcases List.mem_cons.mp seen with rfl | seen
  · exact absurd rfl other
  · exact parent_below seen

theorem tracks (document : DocumentTree tree fresh) (all : index.Collected tree.walk) : Tracks index.links tree := by
  refine ⟨all.sights, fun r inside => ?_⟩
  exact document.below (all.sights.subset (List.mem_map_of_mem inside)) (by simp [LinkRecord.sight])

end DocumentTree

/-- The retagging that settles all links of an index. -/
def settleAll (index : Index) : Tag → Container → Tag × Container :=
  relink (Report.detect index) index index.links

theorem find?_record (distinct : tree.Distinct) (tracks : Tracks index.links tree) {r : LinkRecord}
    (inside : r ∈ index.links) : index.links.find? (·.node.tag = r.node.tag) = some r := by
  have found : (index.links.find? (·.node.tag = r.node.tag)).isSome :=
    List.find?_isSome.mpr ⟨r, inside, by simp⟩
  obtain ⟨q, found⟩ := Option.isSome_iff_exists.mp found
  rw [found, List.inj_on_of_nodup_map (Tracks_nodup distinct tracks) (List.mem_of_find?_eq_some found) inside
    (congrArg Tag.place (record_tag found))]

theorem settleAll_record (distinct : tree.Distinct) (tracks : Tracks index.links tree) {r : LinkRecord}
    (inside : r ∈ index.links) (c : Container) :
    settleAll index r.node.tag c =
      ((settle (Report.detect index) index r).tag,
        .link (settle (Report.detect index) index r).form (settle (Report.detect index) index r).position) := by
  rw [settleAll, relink, find?_record distinct tracks inside]

theorem settleAll_place (t : Tag) (c : Container) : (settleAll index t c).1.place = t.place := relink_place _ _ _ t c

theorem place_of_settleAll {t u : Tag} {c d : Container} (settled : settleAll index t c = (u, d)) :
    t.place = u.place := by
  have place : (settleAll index t c).1.place = t.place := settleAll_place t c
  rw [settled] at place
  exact place.symm

theorem settleAll_alike (distinct : tree.Distinct) (tracks : Tracks index.links tree) (t : Tag) (c : Container)
    (ns : List Node) (member : .branch t c ns ∈ tree.subnodes) : Node.Alike c (settleAll index t c).2 := by
  unfold settleAll relink
  split
  · rename_i r found
    rw [← record_tag found] at member
    rw [container_of_record distinct tracks (List.mem_of_find?_eq_some found) member]
    exact Or.inr ⟨rfl, rfl⟩
  · exact Or.inl rfl

theorem retag_isDefinition (φ : Tag → Container → Tag × Container) (s : Sight) :
    (s.retag φ).isDefinition = s.isDefinition := by
  obtain ⟨tag, face, parent⟩ := s
  cases face <;> rfl

theorem retag_place {φ : Tag → Container → Tag × Container} (places : ∀ t c, (φ t c).1.place = t.place) (s : Sight) :
    (s.retag φ).tag.place = s.tag.place := by
  obtain ⟨tag, face, parent⟩ := s
  cases face with
  | definition label target => rfl
  | branch container => exact places tag container

theorem definition?_eq_some {s : Sight} {d : DefinitionRecord} (shown : s.definition? = some d) :
    s.tag = d.tag ∧ s.isDefinition ∧ s.parent = d.parent := by
  obtain ⟨tag, face, parent⟩ := s
  cases face with
  | definition label target =>
    obtain rfl := Option.some.inj shown
    exact ⟨rfl, rfl, rfl⟩
  | branch container => exact nomatch shown

/-- When links are settled, the collected definitions can still be found. -/
theorem DocumentTree.tracksDefinitions (document : DocumentTree tree fresh) (all : index.Collected tree.walk)
    {φ : Tag → Container → Tag × Container} (places : ∀ t c, (φ t c).1.place = t.place) {n : Node}
    (sights : n.sights = tree.sights.map (Sight.retag φ)) : TracksDefinitions index.definitions n := by
  refine ⟨fun d inside => ?_, ?_⟩
  · rw [all.definitions_eq] at inside
    obtain ⟨s, seen, shown⟩ := List.mem_filterMap.mp inside
    obtain ⟨own, definition, parent⟩ := definition?_eq_some shown
    obtain ⟨p, c, below⟩ := document.below seen fun branch => by simp [Sight.isDefinition, branch] at definition
    refine ⟨s.retag φ, ?_, ?_, ?_, (φ p c).1, (φ p c).2, p, c, ?_, ?_, places p c⟩
    · rw [sights]
      exact List.mem_map_of_mem seen
    · obtain ⟨tag, face, _⟩ := s
      cases face with
      | definition label target => exact own
      | branch container => exact absurd definition Bool.false_ne_true
    · rw [retag_isDefinition, definition]
    · obtain ⟨tag, face, _⟩ := s
      subst below
      cases face <;> rfl
    · rw [← parent, below]
  · have sublist : (index.definitions.map (·.tag)).Sublist tree.tags := by
      rw [all.definitions_eq, Node.tags, List.map_filterMap, ← List.filterMap_eq_map]
      refine Index.filterMap_sublist (fun s t shown => ?_) _
      obtain ⟨d, recorded, rfl⟩ := Option.map_eq_some_iff.mp shown
      exact congrArg some (definition?_eq_some recorded).1
    exact sublist.nodup (List.Nodup.of_map _ document.distinct)

/-- What is left when the definitions with some tags go. -/
theorem DocumentTree.sights_removed (document : DocumentTree tree fresh) (all : index.Collected tree.walk)
    {φ : Tag → Container → Tag × Container} (places : ∀ t c, (φ t c).1.place = t.place) (p : Tag → Bool) :
    (tree.sights.map (Sight.retag φ)).filter (·.tag ∉ (index.definitions.filter (p ·.tag)).map (·.tag)) =
      (tree.sights.filter fun s => !(s.isDefinition && p s.tag)).map (Sight.retag φ) := by
  rw [List.filter_map]
  congr 1
  apply List.filter_congr
  intro s seen
  have recorded : (s.retag φ).tag ∈ (index.definitions.filter (p ·.tag)).map (·.tag) ↔ s.isDefinition && p s.tag := by
    rw [all.definitions_eq, List.mem_map, Bool.and_eq_true]
    constructor
    · rintro ⟨d, inside, same⟩
      obtain ⟨inside, picked⟩ := List.mem_filter.mp inside
      obtain ⟨s', seen', shown⟩ := List.mem_filterMap.mp inside
      obtain ⟨own, definition, -⟩ := definition?_eq_some shown
      have place : s.tag.place = s'.tag.place := by
        rw [own, same, retag_place places]
      rw [document.distinct.sights_inj seen seen' place]
      exact ⟨definition, own ▸ picked⟩
    · rintro ⟨definition, picked⟩
      obtain ⟨tag, face, parent⟩ := s
      cases face with
      | definition label target =>
        exact ⟨_, List.mem_filter.mpr ⟨List.mem_filterMap.mpr ⟨_, seen, rfl⟩, picked⟩, rfl⟩
      | branch container => exact absurd definition Bool.false_ne_true
  simp only [Function.comp_apply, recorded]
  cases s.isDefinition && p s.tag <;> rfl

/-! ### The whole run -/

/-- A run: the document with its link texts reflowed, the nodes that are left of it at the top level without
definitions, and what becomes of them. -/
structure Transformed (tree : Node) (fresh : Nat) (index : Index) (reflowed : Node) (o : Outcome) (root : Tag)
    (ns : List Node) : Prop where
  follows : o.index = settledIndex (Report.detect index) index
  conflicts : o.stats.conflicts = (Report.detect index).conflictsFound
  converted : o.stats.converted = index.links.countP (converts (Report.detect index))
  added : o.stats.added = (staged o.index (Report.detect index) [] (sections ns)).flatten.length
  next : o.forest.fresh = fresh + o.stats.added
  document : o.forest.document = .branch root .document
    (attachAll (sections ns) (numbered fresh (staged o.index (Report.detect index) [] (sections ns)))).flatten
  left : Node.branch root .document ns =
    (reflowed.retag (settleAll index)).rebuild (cleaned (some root) index.definitions)
  sights : (Node.branch root .document ns).sights =
    (tree.sights.filter (!·.isDefinition)).map (Sight.retag (settleAll index))
  collectable : (Node.branch root .document ns).collectable

theorem placeDefinitions_eq (f : Forest) (index : Index) (report : Report) {root : Tag} {ns : List Node}
    (document : (removeDefinitions f index).document = .branch root .document ns)
    (numbering : (removeDefinitions f index).fresh = fresh) :
    (placeDefinitions f index report).added = (staged index report [] (sections ns)).flatten.length ∧
      (placeDefinitions f index report).forest.fresh = fresh + (placeDefinitions f index report).added ∧
      (placeDefinitions f index report).forest.document = .branch root .document
        (attachAll (sections ns) (numbered fresh (staged index report [] (sections ns)))).flatten := by
  simp only [placeDefinitions, document, numbering, placeInSections_eq]
  refine ⟨trivial, congrArg (· + _) numbering, ?_⟩
  simp only [Forest.mapAt, document, Node.mapBranches_branch, if_true]

theorem root_of_sights {n : Node} {root : Tag} {container : Container} {parent : Parent} {ss : List Sight}
    (sights : n.sights = ⟨root, .branch container, parent⟩ :: ss) : ∃ ns, n = .branch root container ns := by
  cases n with
  | leaf l => cases sights
  | definition tag label target =>
    rw [Node.sights, Node.sightsFrom_definition] at sights
    cases (List.cons.inj sights).1
  | branch tag c ns =>
    rw [Node.sights_branch] at sights
    obtain ⟨rfl, same, -⟩ := Sight.mk.inj (List.cons.inj sights).1
    exact ⟨ns, by rw [Face.branch.inj same]⟩

theorem DocumentTree.root_stays (document : DocumentTree tree fresh) {φ : Tag → Container → Tag × Container}
    (alike : ∀ t c ns, .branch t c ns ∈ tree.subnodes → Node.Alike c (φ t c).2) {p : Sight → Bool}
    (branches : ∀ s : Sight, s.isDefinition = false → p s) {n : Node}
    (sights : n.sights = (tree.sights.filter p).map (Sight.retag φ)) : ∃ root ns, n = .branch root .document ns := by
  obtain ⟨tag, children, rfl⟩ := document.root
  have kind : (φ tag .document).2 = .document := by
    rcases alike tag .document children (Node.mem_subnodes_self _) with same | link
    · exact same
    · exact absurd link.1 Bool.false_ne_true
  rw [Node.sights_branch, List.filter_cons_of_pos (branches _ rfl), List.map_cons] at sights
  obtain ⟨ns, same⟩ := root_of_sights sights
  rw [kind] at same
  exact ⟨_, ns, same⟩

theorem reflowWithin_ok {f : Forest} (sole : f.Sole) (tracks : Tracks index.links f.document)
    (collectable : f.document.collectable) (width : Option Int) :
    ∃ g events, f.reflowWithin index (Report.detect index) width = .ok (g, events) ∧
      Reflowed (Report.detect index) index f g := by
  cases width with
  | none => exact ⟨f, [], rfl, Reflowed.refl⟩
  | some width =>
    obtain ⟨g, wrapped, done, reflowed⟩ := Reflowed.run sole tracks collectable (Report.detect index) width
    refine ⟨g, [.reflowed width wrapped], ?_, reflowed⟩
    rw [Forest.reflowWithin, done]
    rfl

/-- Reflowing a document puts the words of some link texts in other lines. -/
theorem reflowWithin_rewraps (document : DocumentTree tree fresh) {width : Option Int} {g : Forest} {events : List Event}
    (collect : Index.empty.collect tree = .ok index)
    (done : (Forest.ofDocument tree fresh).reflowWithin index (Report.detect index) width = .ok (g, events)) :
    ∃ texts, Wraps (Report.detect index) index tree texts ∧ g.document = tree.rewrap texts := by
  have collectable : tree.collectable := Node.collectable_eq collect
  have sole : (Forest.ofDocument tree fresh).Sole := ⟨rfl, document.distinct⟩
  obtain ⟨g', events', done', reflowed⟩ :=
    reflowWithin_ok sole (document.tracks (Index.collected collect)) collectable width
  obtain ⟨rfl, -⟩ := Prod.mk.inj (Except.ok.inj (done.symm.trans done'))
  exact reflowed.rewrapped

theorem transform_eq {width : Option Int} {report : Report} {f : Forest} {told : List Event} {r : Rewriting}
    (collect : Index.empty.collect tree = .ok index) (detect : Report.detect index = report)
    (reflowing : (Forest.ofDocument tree fresh).reflowWithin index report width = .ok (f, told))
    (rewritten : Rewriting.run report ⟨f, index, 0⟩ = r) : ∃ events, tree.transform fresh width =
      .ok ⟨(placeDefinitions r.forest r.index report).forest, r.index,
        ⟨r.converted, report.conflictsFound, (placeDefinitions r.forest r.index report).added⟩, events⟩ := by
  subst detect rewritten
  rw [Node.transform, Forest.transform]
  simp only [Forest.ofDocument] at reflowing ⊢
  simp only [collect, reflowing, bind, Except.bind]
  exact ⟨_, rfl⟩

/-- A document whose links can be collected is transformed. -/
theorem transform_ok (document : DocumentTree tree fresh) (width : Option Int)
    (collect : Index.empty.collect tree = .ok index) :
    ∃ f told o root ns, (Forest.ofDocument tree fresh).reflowWithin index (Report.detect index) width = .ok (f, told) ∧
      tree.transform fresh width = .ok o ∧ Transformed tree fresh index f.document o root ns := by
  have all := Index.collected collect
  have collectable : tree.collectable := Node.collectable_eq collect
  have sole : (Forest.ofDocument tree fresh).Sole := ⟨rfl, document.distinct⟩
  have tracks := document.tracks all
  obtain ⟨f, events, reflowing, reflowed⟩ := reflowWithin_ok sole tracks collectable width
  have seen := reflowed.sights sole
  have linked := reflowed.tracks sole tracks
  have sole := reflowed.sole sole
  have ran := run_eq (Report.detect index) ⟨f, index, 0⟩ sole linked
  have rewritten : Rewriting.run (Report.detect index) ⟨f, index, 0⟩ =
      ⟨{ f with document := f.document.retag (settleAll index) }, settledIndex (Report.detect index) index,
        index.links.countP (converts (Report.detect index))⟩ := by
    rw [ran]
    simp [between, settledIndex, settleAll]
  have sights : (f.document.retag (settleAll index)).sights = tree.sights.map (Sight.retag (settleAll index)) := by
    rw [Node.sights_retag, seen]
    rfl
  have settled : Forest.Sole { f with document := f.document.retag (settleAll index) } :=
    ⟨sole.alone, sole.distinct.retag settleAll_place⟩
  have definitions : TracksDefinitions (settledIndex (Report.detect index) index).definitions
      (f.document.retag (settleAll index)) := document.tracksDefinitions all settleAll_place sights
  have gone : (tree.sights.map (Sight.retag (settleAll index))).filter (·.tag ∉ index.definitions.map (·.tag)) =
      (tree.sights.filter (!·.isDefinition)).map (Sight.retag (settleAll index)) := by
    have places : ∀ t c, (settleAll index t c).1.place = t.place := settleAll_place
    simpa using document.sights_removed all places fun _ => true
  have left := (removeDefinitions_sights settled definitions).trans ((congrArg (List.filter _) sights).trans gone)
  obtain ⟨root, ns, removed⟩ := document.root_stays (settleAll_alike document.distinct tracks) (by simp) left
  have kept := (removeDefinitions_document settled definitions).symm.trans removed
  have top := congrArg Node.tag? kept
  rw [Node.rebuild_tag?] at top
  rw [top] at kept
  have numbering := (removeDefinitions_eq settled definitions).2.trans reflowed.fresh
  obtain ⟨added, next, final⟩ := placeDefinitions_eq _ _ (Report.detect index) removed numbering
  obtain ⟨told, done⟩ := transform_eq collect rfl reflowing rewritten
  refine ⟨f, events, _, root, ns, reflowing, done, rfl, rfl, rfl, added, next, final, kept.symm, removed ▸ left, ?_⟩
  refine removed ▸ removeDefinitions_collectable settled definitions ?_
  exact Node.collectable_retag (settleAll_alike sole.distinct linked) (reflowed.collectable collectable)

theorem transform_error {e : RenderError} (width : Option Int) (collect : Index.empty.collect tree = .error e) :
    tree.transform fresh width = .error e := by
  rw [Node.transform, Forest.transform]
  simp only [Forest.ofDocument, collect, bind, Except.bind]

/-! ### Texts -/

theorem documentTree_parse (t : Text) : DocumentTree (Document.parse t) (Document.parseFrom 0 t).2 :=
  documentTree_parseFrom 0 t

theorem transformText_eq (t : Text) : transformText t none =
    (Document.parse t).transform (Document.parseFrom 0 t).2 none >>= fun o =>
      o.forest.document.render >>= fun text => .ok (text, o.stats) := rfl

theorem transformText_error {t : Text} {e : RenderError}
    (collect : Index.empty.collect (Document.parse t) = .error e) : transformText t none = .error e := by
  rw [transformText_eq, transform_error none collect]
  rfl

/-- A text whose links can be collected is transformed, and what is written is the transformed document. -/
theorem transformText_ok {t : Text} (collect : Index.empty.collect (Document.parse t) = .ok index) :
    ∃ o root ns, Transformed (Document.parse t) (Document.parseFrom 0 t).2 index (Document.parse t) o root ns ∧
      (Document.parse t).transform (Document.parseFrom 0 t).2 none = .ok o ∧
      transformText t none = o.forest.document.render.map (·, o.stats) := by
  obtain ⟨f, told, o, root, ns, reflowing, done, transformed⟩ := transform_ok (documentTree_parse t) none collect
  obtain ⟨rfl, -⟩ := Prod.mk.inj (Except.ok.inj reflowing)
  refine ⟨o, root, ns, transformed, done, ?_⟩
  rw [transformText_eq, done]
  change (o.forest.document.render >>= fun text => .ok (text, o.stats)) = _
  cases o.forest.document.render <;> rfl

end MarkdownLinks
