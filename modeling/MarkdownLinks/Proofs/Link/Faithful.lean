import MarkdownLinks.Proofs.Link.Resolution
import MarkdownLinks.Proofs.Prose

/-!
Whether a run keeps where all links of a document lead, the ones without a text included. The tree that is written
has the same links in the same order; they lead where they led before exactly if the document is `Faithful`. The text
that is written need not be read as that tree again.
-/

namespace MarkdownLinks

open Rewriting

namespace Node

def link? : Node → Option (Tag × LinkForm)
  | branch tag (.link form _) _ => some (tag, form)
  | _ => none

/-- The links of a tree in walk order. -/
def links (n : Node) : List (Tag × LinkForm) := n.subnodes.filterMap link?

/-- Where the links of a document lead by its own definitions, in walk order. -/
def urls (n : Node) : Except RenderError (List (Option Text)) := do
  let index ← Index.empty.collect n
  .ok (n.links.map fun link => (index.resolve link.2).1)

end Node

def Sight.link? (s : Sight) : Option (Tag × LinkForm) :=
  match s.face with
  | .branch (.link form _) => some (s.tag, form)
  | _ => none

theorem Node.links_eq_sights (n : Node) (parent : Parent) : n.links = (n.sightsFrom parent).filterMap Sight.link? := by
  refine subnodes_filterMap (fun _ => rfl) (fun _ _ _ _ => rfl) (fun _ container _ _ => ?_) parent n
  cases container <;> rfl

theorem Node.links_document (tag : Tag) (ns : List Node) : (Node.branch tag .document ns).links = ns.flatMap links := by
  rw [links, subnodes_branch, List.filterMap_cons, List.filterMap_flatMap]
  rfl

theorem Node.links_of_isBlankLine (n : Node) (blank : n.isBlankLine) : n.links = [] := by
  rw [n.links_eq_sights .none, sightsFrom_of_isBlankLine blank]
  rfl

theorem Sight.link?_of_isDefinition {s : Sight} (definition : s.isDefinition) : s.link? = none := by
  obtain ⟨tag, face, parent⟩ := s
  cases face with
  | definition label target => rfl
  | branch container => exact absurd definition Bool.false_ne_true

/-- What a link is after its record has been settled, if it has one. -/
def settledLink (index : Index) (link : Tag × LinkForm) : Tag × LinkForm :=
  match index.links.find? (·.node.tag = link.1) with
  | some r => ((settle (Report.detect index) index r).tag, (settle (Report.detect index) index r).form)
  | none => link

/-- Where the definitions made for identities with one destination lead from an identifier. -/
def Index.newUrl? (index : Index) (identifier : Text) : Option Text :=
  (index.soleTargets.find? fun d => identifierOf d.1 = identifier).map (·.2.dest)

/-- When all links of a document go on leading where they lead: no two identities collide, no link without a
destination gets that of others with its text, and each reference that stays as it is finds the same destination in
the new definitions. -/
structure Faithful (tree : Node) (index : Index) : Prop where
  apart : NoCollision index
  leads : ∀ r ∈ index.links, ∀ t, index.soleTarget? r.identity = some t → (index.resolve r.node.form).1 ≠ none
  stays : ∀ tag label written, (tag, .reference label written) ∈ tree.links →
    (∀ r ∈ index.links, r.node.tag = tag →
      index.soleTarget? r.identity = none ∧ (index.resolve r.node.form).1 = none) →
    (index.resolve (.reference label written)).1 = index.newUrl? (identifierOf label)

/-- Without collisions the order in which definitions stand does not matter. -/
theorem NoCollision.resolve_reference {index after : Index} {doc : Node} (apart : NoCollision index)
    (again : after.Collected doc.walk) (perm : doc.definitions.Perm index.soleTargets) (label : Text)
    (written : ReferenceForm) : (after.resolve (.reference label written)).1 = index.newUrl? (identifierOf label) := by
  rw [Index.newUrl?]
  cases found : index.soleTargets.find? fun d => identifierOf d.1 = identifierOf label with
  | none =>
    have absent : (doc.definitions.find? fun d => identifierOf d.1 = identifierOf label) = none :=
      List.find?_eq_none.mpr fun d inside => List.find?_eq_none.mp found d (perm.mem_iff.mp inside)
    rw [again.resolve_reference, absent]
    rfl
  | some d =>
    obtain ⟨k, u⟩ := d
    have sole := Index.mem_soleTargets.mp (List.mem_of_find?_eq_some found)
    have matched : identifierOf k = identifierOf label := by simpa using List.find?_some found
    obtain ⟨k', v, sole', matched', lead⟩ := again.resolve_of_perm perm sole
    rw [lead label written matched.symm, apart k' k v u sole' sole matched', Option.map_some]

variable {tree reflowed : Node} {fresh : Nat} {index after : Index} {o : Outcome} {root : Tag} {ns : List Node}

theorem retag_link? (distinct : tree.Distinct) (tracks : Tracks index.links tree) {s : Sight}
    (seen : s ∈ tree.sights) :
    (s.retag (settleAll index)).link? = s.link?.map (settledLink index) := by
  obtain ⟨tag, face, parent⟩ := s
  cases face with
  | definition label target => rfl
  | branch container =>
    rcases Node.face_of_mem_sightsFrom seen with ⟨_, _, other, -⟩ | ⟨c, ms, same, member⟩
    · exact nomatch other
    obtain rfl := Face.branch.inj same
    simp only [Sight.retag, Sight.link?, settleAll, relink]
    cases found : index.links.find? (·.node.tag = tag) with
    | none => cases container <;> simp [settledLink, found]
    | some r =>
      rw [← record_tag found] at member
      rw [container_of_record distinct tracks (List.mem_of_find?_eq_some found) member]
      simp [settledLink, found]

theorem record_link (distinct : tree.Distinct) (tracks : Tracks index.links tree) {r : LinkRecord}
    (inside : r ∈ index.links) {form : LinkForm} (member : (r.node.tag, form) ∈ tree.links) : form = r.node.form := by
  obtain ⟨m, below, shown⟩ := List.mem_filterMap.mp member
  unfold Node.link? at shown
  split at shown
  · obtain ⟨rfl, rfl⟩ := Prod.mk.inj (Option.some.inj shown)
    exact (Container.link.inj (container_of_record distinct tracks inside below)).1
  · exact nomatch shown

theorem mem_links_of_record (tracks : Tracks index.links tree) {r : LinkRecord} (inside : r ∈ index.links) :
    (r.node.tag, r.node.form) ∈ tree.links := by
  rw [tree.links_eq_sights .none]
  exact List.mem_filterMap.mpr ⟨r.sight, tracks.sights.subset (List.mem_map_of_mem inside), rfl⟩

namespace Transformed

/-- A transformed document has the links of the document, settled, in the same order. -/
theorem links (t : Transformed tree fresh index reflowed o root ns) (document : DocumentTree tree fresh)
    (all : index.Collected tree.walk) :
    o.forest.document.links = tree.links.map (settledLink index) := by
  have blind : ∀ n ∈ (numbered fresh (staged o.index (Report.detect index) [] (sections ns))).flatten,
      n.links = [] := by
    intro n inside
    obtain ⟨nodes, among, inside⟩ := List.mem_flatten.mp inside
    obtain ⟨place, label, target, rfl, -⟩ := attached among inside
    rfl
  rw [t.document, Node.links_document, attachAll_flatMap_old Node.links_of_isBlankLine (nodes_length o fresh _ ns) blind,
    sections_flatten, ← Node.links_document root, Node.links_eq_sights _ .none, tree.links_eq_sights .none]
  change (Node.branch root .document ns).sights.filterMap Sight.link? = _
  rw [t.sights, List.filterMap_map, List.filterMap_filter]
  change _ = (tree.sights.filterMap Sight.link?).map (settledLink index)
  rw [List.map_filterMap]
  apply List.filterMap_congr
  intro s seen
  cases definition : s.isDefinition with
  | true =>
    rw [Sight.link?_of_isDefinition definition]
    rfl
  | false => exact retag_link? document.distinct (document.tracks all) seen

theorem record_keeps (t : Transformed tree fresh index reflowed o root ns) (document : DocumentTree tree fresh)
    (all : index.Collected tree.walk) (collect : after.Collected o.forest.document.walk)
    (faithful : Faithful tree index) {r : LinkRecord} (inside : r ∈ index.links) :
    (after.resolve (settle (Report.detect index) index r).form).1 = (index.resolve r.node.form).1 := by
  have tracks := document.tracks all
  cases lead : (index.resolve r.node.form).1 with
  | some u =>
    obtain ⟨i, slot⟩ := List.mem_iff_getElem?.mp inside
    refine (t.sameDestinations_iff document all collect).mpr faithful.apart i r
      (settleRecord (Report.detect index) index r) u slot ?_ lead
    rw [t.follows, settledIndex, List.getElem?_map, slot, Option.map_some]
  | none =>
    have several : index.soleTarget? r.identity = none :=
      Option.eq_none_iff_forall_not_mem.mpr fun target sole => faithful.leads r inside target sole lead
    rw [settle_eq_self all inside several lead]
    cases form : r.node.form with
    | inline target =>
      rw [form] at lead
      exact lead
    | reference label written =>
      have member := mem_links_of_record tracks inside
      rw [form] at member lead
      rw [faithful.apart.resolve_reference collect (t.definitions_perm document all), ← lead]
      refine (faithful.stays r.node.tag label written member fun q among own => ?_).symm
      have same : q = r := List.inj_on_of_nodup_map (Tracks_nodup document.distinct tracks) among inside
        (congrArg Tag.place own)
      rw [same, form]
      exact ⟨several, lead⟩

theorem urls_eq_iff_forall (t : Transformed tree fresh index reflowed o root ns) (document : DocumentTree tree fresh)
    (collect : Index.empty.collect tree = .ok index) (collect' : Index.empty.collect o.forest.document = .ok after) :
    o.forest.document.urls = tree.urls ↔
      ∀ link ∈ tree.links, (after.resolve (settledLink index link).2).1 = (index.resolve link.2).1 := by
  rw [Node.urls, Node.urls, collect, collect']
  change Except.ok (o.forest.document.links.map fun link => (after.resolve link.2).1) =
    Except.ok (tree.links.map _) ↔ _
  rw [t.links document (Index.collected collect), List.map_map, Except.ok.injEq, List.map_inj_left]
  rfl

/-- All links of a transformed document lead where they led exactly if the document is faithful. -/
theorem urls_eq_iff (t : Transformed tree fresh index reflowed o root ns) (document : DocumentTree tree fresh)
    (collect : Index.empty.collect tree = .ok index) (collect' : Index.empty.collect o.forest.document = .ok after) :
    o.forest.document.urls = tree.urls ↔ Faithful tree index := by
  have all := Index.collected collect
  have again := Index.collected collect'
  have tracks := document.tracks all
  rw [t.urls_eq_iff_forall document collect collect']
  constructor
  · intro same
    have settled : ∀ r ∈ index.links, (after.resolve (settle (Report.detect index) index r).form).1 =
        (index.resolve r.node.form).1 := by
      intro r inside
      have own := same _ (mem_links_of_record tracks inside)
      rwa [settledLink, find?_record document.distinct tracks inside] at own
    have apart : NoCollision index := by
      apply (t.sameDestinations_iff document all again).mp
      intro i r r' u slot slot' lead
      rw [t.follows, settledIndex, List.getElem?_map, slot] at slot'
      rw [← Option.some.inj slot', ← lead]
      exact settled r (List.mem_of_getElem? slot)
    refine ⟨apart, fun r inside target sole lost => ?_, fun tag label written member unchanged => ?_⟩
    · obtain ⟨k, v, -, -, lead⟩ := again.resolve_of_perm (t.definitions_perm document all) sole
      have own := settled r inside
      rw [settle_form_of_soleTarget? all inside sole, lead _ _ rfl, lost] at own
      cases own
    · have kept : settledLink index (tag, .reference label written) = (tag, .reference label written) := by
        unfold settledLink
        split
        · rename_i r found
          have inside := List.mem_of_find?_eq_some found
          obtain rfl := record_tag found
          obtain ⟨several, lost⟩ := unchanged r inside rfl
          rw [settle_eq_self all inside several lost, record_link document.distinct tracks inside member]
        · rfl
      have own := same _ member
      rw [kept, apart.resolve_reference again (t.definitions_perm document all)] at own
      exact own.symm
  · intro faithful link member
    obtain ⟨tag, form⟩ := link
    cases found : index.links.find? (·.node.tag = tag) with
    | some r =>
      have inside := List.mem_of_find?_eq_some found
      obtain rfl := record_tag found
      rw [settledLink, found, record_link document.distinct tracks inside member]
      exact t.record_keeps document all again faithful inside
    | none =>
      rw [settledLink, found]
      cases form with
      | inline target => rfl
      | reference label written =>
        have absent : ∀ r ∈ index.links, r.node.tag ≠ tag := fun r inside own =>
          List.find?_eq_none.mp found r inside (by simpa using own)
        rw [faithful.apart.resolve_reference again (t.definitions_perm document all)]
        exact (faithful.stays tag label written member fun r inside own => absurd own (absent r inside)).symm

end Transformed

/-! ### Reading what was written -/

namespace Node

theorem definitions_bare (n : Node) : n.bare.definitions = n.definitions := by
  refine filterMap_bare (fun m => ?_) n
  cases m with
  | leaf l => rfl
  | definition tag label target => rfl
  | branch tag container ms => rw [bare_branch]; rfl

theorem forms_bare (n : Node) : n.bare.links.map Prod.snd = n.links.map Prod.snd := by
  rw [links, links, List.map_filterMap, List.map_filterMap]
  refine filterMap_bare (fun m => ?_) n
  cases m with
  | leaf l => rfl
  | definition tag label target => rfl
  | branch tag container ms => rw [bare_branch]; cases container <;> rfl

end Node

theorem collect_ok_of_bare {n m : Node} (collect : Index.empty.collect n = .ok index) (alike : m.bare = n.bare) :
    ∃ after, Index.empty.collect m = .ok after := by
  rw [← isOk_iff, Node.collect_isOk, ← m.collectable_bare, alike, Node.collectable_bare, ← Node.collect_isOk Index.empty,
    collect]
  rfl

theorem urls_of_bare {n m : Node} (collect : Index.empty.collect n = .ok index) (alike : m.bare = n.bare) :
    m.urls = n.urls := by
  obtain ⟨after, collect'⟩ := collect_ok_of_bare collect alike
  have definitions : m.definitions = n.definitions := by
    rw [← m.definitions_bare, alike, n.definitions_bare]
  have forms : m.links.map Prod.snd = n.links.map Prod.snd := by
    rw [← m.forms_bare, alike, n.forms_bare]
  have resolve : after.resolve = index.resolve := by
    funext form
    cases form with
    | inline target => rfl
    | reference label written =>
      rw [(Index.collected collect').resolve_reference, (Index.collected collect).resolve_reference, definitions]
  have urls := congrArg (List.map fun form => (index.resolve form).1) forms
  rw [List.map_map, List.map_map] at urls
  rw [Node.urls, Node.urls, collect, collect']
  change Except.ok (m.links.map fun link => (after.resolve link.2).1) = _
  rw [resolve]
  exact congrArg Except.ok urls

theorem urls_of_alike {t out : Text} {index : Index} {o : Outcome}
    (collect : Index.empty.collect (Document.parse t) = .ok index)
    (run : (Document.parse t).transform (Document.parseFrom 0 t).2 none = .ok o)
    (alike : (Document.parse out).bare = o.forest.document.bare) :
    (Document.parse out).urls = (Document.parse t).urls ↔ Faithful (Document.parse t) index := by
  obtain ⟨o₁, root, ns, transformed, run₁, -⟩ := transformText_ok collect
  obtain rfl : o = o₁ := Except.ok.inj (run.symm.trans run₁)
  obtain ⟨after, collect'⟩ := transformed.collect_ok
  rw [urls_of_bare collect' alike, transformed.urls_eq_iff (documentTree_parse t) collect collect']

/-- If prose is written for a text, its links lead where those of the text lead exactly if the document of that is
faithful. -/
theorem Prose.urls_write (p : Prose) {t : Text} {index : Index} {o : Outcome}
    (collect : Index.empty.collect (Document.parse t) = .ok index)
    (run : (Document.parse t).transform (Document.parseFrom 0 t).2 none = .ok o)
    (written : o.forest.document.bare = p.tree) : transformText t none = .ok (p.write, o.stats) ∧
      ((Document.parse p.write).urls = (Document.parse t).urls ↔ Faithful (Document.parse t) index) := by
  refine ⟨?_, urls_of_alike collect run (p.parse_write.trans written.symm)⟩
  rw [transformText_eq, run]
  change o.forest.document.render >>= _ = _
  rw [p.render_of_bare written]
  rfl

/-- What is written for a text is the transformed document. It has as many links, which lead where those of the text lead
exactly if the document of the text is faithful; if it is read back, that holds of the links in the written text. -/
theorem transformText_writes_links (t : Text) :
    let tree := Document.parse t
    match Index.empty.collect tree with
    | .error e => transformText t none = .error e
    | .ok index => ∃ o, tree.transform (Document.parseFrom 0 t).2 none = .ok o ∧
      let written := o.forest.document
      transformText t none = written.render.map (·, o.stats) ∧ written.links.length = tree.links.length ∧
        (written.urls = tree.urls ↔ Faithful tree index) ∧
        (ReadsBack written → ∀ out, written.render = .ok out →
          ((Document.parse out).urls = tree.urls ↔ Faithful tree index)) := by
  dsimp only
  cases collect : Index.empty.collect (Document.parse t) with
  | error e => exact transformText_error collect
  | ok index =>
    have document := documentTree_parse t
    obtain ⟨o, root, ns, transformed, run, written⟩ := transformText_ok collect
    obtain ⟨after, collect'⟩ := transformed.collect_ok
    have lead := transformed.urls_eq_iff document collect collect'
    refine ⟨o, run, written, ?_, lead, fun readsBack out text => urls_of_alike collect run (readsBack out text)⟩
    simpa using congrArg List.length (transformed.links document (Index.collected collect))

def guide : Text := "See [the docs](x) or [b][r].\n\n[home](/y) again.\n\n[r]: z\n".toList

/-- What is written for the guide. -/
def writtenGuide : Prose where
  paragraphs := [.link "See ".toList "the docs".toList (.link " or ".toList ['b'] (.words ['.'])),
    .link [] "home".toList (.words " again.".toList)]
  definitions := [(['b'], ['z']), ("home".toList, "/y".toList), ("the docs".toList, ['x'])]
  plain := by decide
  bare := by decide
  defined := by decide +kernel

theorem guide_collect : (Index.empty.collect (Document.parse guide)).isOk = true := by decide +kernel

theorem guide_transform : ((Document.parse guide).transform (Document.parseFrom 0 guide).2 none).map (fun o =>
    (o.forest.document.bare, o.stats)) = .ok (writtenGuide.tree, ⟨2, 0, 3⟩) := by decide +kernel

theorem guide_links_kept : transformText guide none = .ok (writtenGuide.write, ⟨2, 0, 3⟩) ∧
    (Document.parse writtenGuide.write).urls = (Document.parse guide).urls := by
  have urls : ((Document.parse guide).transform (Document.parseFrom 0 guide).2 none >>= fun o => o.forest.document.urls) =
      (Document.parse guide).urls := by decide +kernel
  have collects := guide_collect
  have outcome := guide_transform
  -- Nothing is computed from here on.
  generalize guide = t at urls collects outcome ⊢
  have all := transformText_writes_links t
  cases collect : Index.empty.collect (Document.parse t) with
  | error e =>
    rw [collect] at collects
    exact nomatch collects
  | ok index =>
    simp only [collect] at all
    obtain ⟨o, run, written, -, lead, read⟩ := all
    rw [run] at urls outcome
    obtain ⟨document, stats⟩ := Prod.mk.inj (Except.ok.inj outcome)
    have text := writtenGuide.render_of_bare document
    refine ⟨?_, (read (writtenGuide.readsBack document) _ text).mpr (lead.mp urls)⟩
    rw [written, text, stats]
    rfl

/-- The written tree can be lost in reading: of two links next to each other, the first becomes the text of the
second. -/
theorem adjacent_links_merge :
    transformText "[a](x)[b](y)\n".toList none = .ok ("[a][b]\n\n[a]: x\n[b]: y\n".toList, ⟨2, 0, 2⟩) ∧
      (Document.parse "[a](x)[b](y)\n".toList).urls = .ok [some ['x'], some ['y']] ∧
      (Document.parse "[a][b]\n\n[a]: x\n[b]: y\n".toList).urls = .ok [some ['y']] := by
  decide +kernel

end MarkdownLinks
