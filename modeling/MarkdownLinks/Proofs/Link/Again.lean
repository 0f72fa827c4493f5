import MarkdownLinks.Proofs.Link.Text

/-!
A transformed document that is collected again. If the document was flat, its links are found under the tags and
with the identities that the records have, so the new index knows the same identities under the same ids.
-/

namespace MarkdownLinks

open Rewriting

variable {tree reflowed : Node} {fresh : Nat} {index : Index} {o : Outcome} {root : Tag} {ns : List Node}

theorem definition_of_place (distinct : tree.Distinct) (all : index.Collected tree.walk) {d : DefinitionRecord}
    (recorded : d ∈ index.definitions) {m : Node} (member : m ∈ tree.subnodes) {tag : Tag} (tagged : m.tag? = some tag)
    (place : tag.place = d.tag.place) : m.definition? ≠ none := by
  rw [all.definitions_eq] at recorded
  obtain ⟨s, seen, shown⟩ := List.mem_filterMap.mp recorded
  obtain ⟨own, definition, -⟩ := definition?_eq_some shown
  rcases Node.face_of_mem_sightsFrom seen with ⟨label, target, -, member'⟩ | ⟨c, ms, face, -⟩
  · have same := distinct.subnode_inj member member' tagged rfl (place.trans (by rw [own]))
    rw [same]
    exact Option.some_ne_none _
  · simp [Sight.isDefinition, face] at definition

theorem not_recorded (distinct : tree.Distinct) (all : index.Collected tree.walk) {m : Node} (member : m ∈ tree.subnodes)
    (plain : m.definition? = none) {tag tag' : Tag} (tagged : m.tag? = some tag) (place : tag'.place = tag.place) :
    tag' ∉ index.definitions.map (·.tag) := by
  intro recorded
  obtain ⟨d, inside, rfl⟩ := List.mem_map.mp recorded
  exact definition_of_place distinct all inside member tagged place.symm plain

theorem recorded_of_definition (all : index.Collected tree.walk) {tag : Tag} {label : Text} {target : Target}
    (member : .definition tag label target ∈ tree.subnodes) : tag ∈ index.definitions.map (·.tag) := by
  obtain ⟨v, visited, node⟩ := List.mem_map.mp member
  rw [all.definitions, List.mem_map]
  refine ⟨⟨identifierOf label, tag, target, v.parentOf⟩, List.mem_filterMap.mpr ⟨v, visited, ?_⟩, rfl⟩
  rw [Visit.definition?, node]

/-- The recorded tags of definitions are those of definitions, also after branches have got other ids. -/
theorem carries_retag (distinct : tree.Distinct) (all : index.Collected tree.walk) {φ : Tag → Container → Tag × Container}
    (places : ∀ t c, (φ t c).1.place = t.place) {n : Node} (member : n ∈ tree.subnodes) :
    (n.retag φ).carries (index.definitions.map (·.tag)) = n.definition?.isSome := by
  cases n with
  | leaf l => rfl
  | definition tag label target =>
    have recorded := recorded_of_definition all member
    simpa [Node.carries, Node.tag?, Node.definition?] using recorded
  | branch t c ms =>
    rw [Node.retag_branch, Node.carries, Node.tag?, Option.any_some, List.contains_eq_mem]
    exact decide_eq_false (not_recorded distinct all member rfl rfl (places t c))

theorem carries_recorded (distinct : tree.Distinct) (all : index.Collected tree.walk) {n : Node}
    (member : n ∈ tree.subnodes) : n.carries (index.definitions.map (·.tag)) = n.definition?.isSome := by
  have kept : n.retag Prod.mk = n := Node.retag_eq_self fun _ _ _ _ => rfl
  rw [← carries_retag distinct all (φ := Prod.mk) (fun _ _ => rfl) member, kept]

/-- A node that is recorded as the parent of a definition stands in the tree, with that definition below it. -/
theorem branch_of_parent (all : index.Collected tree.walk) {p : Tag}
    (noted : p ∈ index.definitions.filterMap (·.parent.tag?)) :
    ∃ c ms, .branch p c ms ∈ tree.subnodes ∧ ∃ d ∈ index.definitions, ∃ m ∈ ms, m.tag? = some d.tag := by
  obtain ⟨d, recorded, parent⟩ := List.mem_filterMap.mp noted
  have old := recorded
  rw [all.definitions_eq] at old
  obtain ⟨s, seen, shown⟩ := List.mem_filterMap.mp old
  obtain ⟨own, -, above⟩ := definition?_eq_some shown
  rcases Node.parent_of_mem_sightsFrom seen with ⟨-, top⟩ | ⟨q, c, ms, below, member, m, inside, tagged⟩
  · rw [← above, top] at parent
    exact nomatch parent
  · rw [← above, below] at parent
    obtain rfl : q = p := Option.some.inj parent
    exact ⟨c, ms, member, d, recorded, m, inside, own ▸ tagged⟩

theorem parent_recorded (document : DocumentTree tree fresh) (all : index.Collected tree.walk) {t : Tag} {c : Container}
    {ms : List Node} (member : .branch t c ms ∈ tree.subnodes) {k : Node} (inside : k ∈ ms)
    (definition : k.definition? ≠ none) : t ∈ index.definitions.filterMap (·.parent.tag?) := by
  cases k with
  | leaf l => exact absurd rfl definition
  | branch tag container ns => exact absurd rfl definition
  | definition tag label target =>
    obtain ⟨s, seen, own, below⟩ := Node.sight_of_child .none member inside rfl
    have child : .definition tag label target ∈ tree.subnodes :=
      Node.mem_subnodes_below member inside (Node.mem_subnodes_self _)
    rcases Node.face_of_mem_sightsFrom seen with ⟨label', target', face, -⟩ | ⟨container, ns, -, member'⟩
    · rw [all.definitions_eq, List.filterMap_filterMap]
      refine List.mem_filterMap.mpr ⟨s, seen, ?_⟩
      obtain ⟨_, _, _⟩ := s
      subst face below
      rfl
    · exact nomatch document.distinct.subnode_inj child member' rfl rfl (by rw [own])

/-- A node without definitions among its children is recorded as the parent of none, under no tag for its place. -/
theorem not_noted (distinct : tree.Distinct) (all : index.Collected tree.walk) {t : Tag} {c : Container} {ms : List Node}
    (member : .branch t c ms ∈ tree.subnodes) (plain : ∀ m ∈ ms, m.definition? = none) {t' : Tag}
    (place : t'.place = t.place) : t' ∉ index.definitions.filterMap (·.parent.tag?) := by
  intro noted
  obtain ⟨c', ks, member', d, recorded, m, inside, tagged⟩ := branch_of_parent all noted
  obtain ⟨-, -, rfl⟩ := Node.branch.inj (distinct.branch_inj member' member place)
  have below := Node.mem_subnodes_below member inside (Node.mem_subnodes_self m)
  exact definition_of_place distinct all recorded below tagged rfl (plain m inside)

theorem cleaned_eq_self (document : DocumentTree tree fresh) (all : index.Collected tree.walk) {t : Tag} {c : Container}
    {ms : List Node} (member : .branch t c ms ∈ tree.subnodes) (plain : ∀ m ∈ ms, m.definition? = none) {t' : Tag}
    (place : t'.place = t.place) (r : Option Tag) : cleaned r index.definitions t' ms = ms := by
  have child : ∀ m ∈ ms, m ∈ tree.subnodes := fun m inside =>
    Node.mem_subnodes_below member inside (Node.mem_subnodes_self m)
  have stays : ms.filter (!Node.carries (index.definitions.map (·.tag)) ·) = ms := by
    apply List.filter_eq_self.mpr
    intro m inside
    rw [carries_recorded document.distinct all (child m inside), plain m inside]
    rfl
  rw [cleaned, stays, tidied, if_neg (not_noted document.distinct all member plain place)]

theorem settleAll_of_not_isLink (distinct : tree.Distinct) (tracks : Tracks index.links tree) {t : Tag} {c : Container}
    {ms : List Node} (member : .branch t c ms ∈ tree.subnodes) (other : c.isLink = false) :
    settleAll index t c = (t, c) := by
  unfold settleAll relink
  split
  · rename_i r found
    rw [← record_tag found] at member
    rw [container_of_record distinct tracks (List.mem_of_find?_eq_some found) member] at other
    exact absurd other.symm Bool.false_ne_true
  · rfl

theorem Transformed.root_tag? (t : Transformed tree fresh index reflowed o root ns) (document : DocumentTree tree fresh)
    (all : index.Collected tree.walk) : tree.tag? = some root := by
  obtain ⟨tag, children, rfl⟩ := document.root
  have top := t.sights
  rw [Node.sights_branch, Node.sights_branch, List.filter_cons_of_pos rfl, List.map_cons, Sight.retag] at top
  have same := (Sight.mk.inj (List.cons.inj top).1).1
  rw [settleAll_of_not_isLink document.distinct (document.tracks all) (Node.mem_subnodes_self _) rfl] at same
  rw [same]
  rfl

theorem Transformed.settled_root (t : Transformed tree fresh index reflowed o root ns) (document : DocumentTree tree fresh)
    (all : index.Collected tree.walk) :
    tree.retag (settleAll index) = .branch root .document (tree.children.map (Node.retag (settleAll index))) := by
  have tagged := t.root_tag? document all
  obtain ⟨tag, children, rfl⟩ := document.root
  obtain rfl : tag = root := Option.some.inj tagged
  rw [Node.retag_branch,
    settleAll_of_not_isLink document.distinct (document.tracks all) (Node.mem_subnodes_self _) rfl]
  rfl

theorem settleAll_link (distinct : tree.Distinct) (tracks : Tracks index.links tree) {t : Tag} {form : LinkForm}
    {position : Option Position} {ms : List Node} (member : .branch t (.link form position) ms ∈ tree.subnodes) :
    settleAll index t (.link form position) =
      ((settledLink index (t, form)).1, .link (settledLink index (t, form)).2 position) := by
  unfold settleAll relink settledLink
  cases found : index.links.find? (·.node.tag = t) with
  | none => rfl
  | some r =>
    rw [← record_tag found] at member
    have same := container_of_record distinct tracks (List.mem_of_find?_eq_some found) member
    simp only [settle_position, (Container.link.inj same).2]

theorem settledLink_place (link : Tag × LinkForm) : (settledLink index link).1.place = link.1.place := by
  unfold settledLink
  split
  · rename_i r found
    rw [settle_place, record_tag found]
  · rfl

/-- A run keeps the texts of the links of a flat document. -/
theorem keepsTexts (document : DocumentTree tree fresh) (all : index.Collected tree.walk) (flat : tree.flat)
    (r : Option Tag) : Node.KeepsTexts (settleAll index) (settledLink index) (cleaned r index.definitions) tree := by
  have tracks := document.tracks all
  refine ⟨fun t c ms member other => settleAll_of_not_isLink document.distinct tracks member other,
    fun t form position ms member => settleAll_link document.distinct tracks member,
    fun t form position ms member => ?_, fun t form position ms member t' c' ms' below => ?_,
    fun t c ms member other => ?_⟩
  · refine cleaned_eq_self document all member (fun m inside => ?_) (settledLink_place _) r
    exact (Node.flat_below flat member (List.mem_flatMap.mpr ⟨m, inside, Node.mem_subnodes_self m⟩)).2
  · obtain ⟨m, inside, below⟩ := List.mem_flatMap.mp below
    have lower := Node.mem_subnodes_below member inside below
    refine cleaned_eq_self document all lower (fun k among => ?_) rfl r
    refine (Node.flat_below flat member (List.mem_flatMap.mpr ⟨m, inside, ?_⟩)).2
    exact Node.mem_subnodes_below below among (Node.mem_subnodes_self k)
  · -- What is dropped are blank lines and definitions, which have no links below them.
    rw [cleaned, tidied_flatMap Node.texts_of_isBlankLine, Node.flatMap_filter]
    apply List.flatMap_congr
    intro x inside
    obtain ⟨m, among, rfl⟩ := List.mem_map.mp inside
    cases gone : Node.carries (index.definitions.map (·.tag)) ((m.retag (settleAll index)).rebuild _) with
    | false => rfl
    | true =>
      rw [Node.carries_rebuild, carries_retag document.distinct all settleAll_place
        (Node.mem_subnodes_below member among (Node.mem_subnodes_self m))] at gone
      cases m with
      | leaf l => exact absurd gone Bool.false_ne_true
      | definition tag label target => rfl
      | branch t' c' ks => exact absurd gone Bool.false_ne_true

namespace Transformed

theorem attached_texts {report : Report} {n : Node}
    (inside : n ∈ (numbered fresh (staged o.index report [] (sections ns))).flatten) : n.texts = [] := by
  obtain ⟨nodes, among, inside⟩ := List.mem_flatten.mp inside
  obtain ⟨place, label, target, rfl, -⟩ := attached among inside
  rfl

/-- The links of what is left of a flat document are those of the records, under their tags and with their
identities. -/
theorem left_texts (t : Transformed tree fresh index tree o root ns) (document : DocumentTree tree fresh)
    (all : index.Collected tree.walk) (flat : tree.flat) :
    (Node.branch root .document ns).texts = o.index.links.map LinkRecord.text := by
  have tracks := document.tracks all
  have settled : ∀ r ∈ index.links,
      Prod.map (settledLink index) id r.text = (settleRecord (Report.detect index) index r).text := by
    intro r inside
    have found := find?_record document.distinct tracks inside
    change (settledLink index (r.node.tag, r.node.form), r.identity) = _
    rw [settledLink, found]
    rfl
  rw [t.left, Node.texts_retag_rebuild flat (keepsTexts document all flat _), ← all.texts, t.follows, settledIndex,
    List.map_map, List.map_map]
  exact List.map_congr_left settled

theorem texts (t : Transformed tree fresh index tree o root ns) (document : DocumentTree tree fresh)
    (all : index.Collected tree.walk) (flat : tree.flat) :
    o.forest.document.texts = o.index.links.map LinkRecord.text := by
  rw [← t.left_texts document all flat, t.document, Node.texts_of_not_isLink _ rfl, Node.texts_of_not_isLink _ rfl,
    attachAll_flatMap_old Node.texts_of_isBlankLine (nodes_length o fresh _ ns) fun n inside => attached_texts inside,
    sections_flatten]

theorem left_places (t : Transformed tree fresh index reflowed o root ns) (document : DocumentTree tree fresh) :
    (Node.branch root .document ns).Distinct ∧ ∀ tag ∈ (Node.branch root .document ns).tags, tag.place < fresh := by
  have places : (Node.branch root .document ns).tags.map Tag.place =
      (tree.sights.filter (!·.isDefinition)).map (·.tag.place) := by
    rw [Node.tags, t.sights, List.map_map, List.map_map]
    exact List.map_congr_left fun s _ => retag_place settleAll_place s
  have distinct : (tree.sights.map fun s => s.tag.place).Nodup := by
    simpa [Node.Distinct, Node.tags, Function.comp_def] using document.distinct
  refine ⟨?_, fun tag inside => ?_⟩
  · rw [Node.Distinct, places]
    exact distinct.sublist (List.filter_sublist.map _)
  · have place := List.mem_map_of_mem (f := Tag.place) inside
    rw [places] at place
    obtain ⟨s, seen, same⟩ := List.mem_map.mp place
    rw [← same]
    exact document.bound _ (List.mem_map_of_mem (List.mem_filter.mp seen).1)

/-- In the place of a link, its settled node is left. -/
theorem settled_tag (t : Transformed tree fresh index reflowed o root ns) (document : DocumentTree tree fresh)
    (all : index.Collected tree.walk) {tag : Tag} (inside : tag ∈ ns.flatMap Node.tags) {r : LinkRecord}
    (recorded : r ∈ index.links) (place : tag.place = r.node.tag.place) :
    tag = (settle (Report.detect index) index r).tag := by
  have distinct := (t.left_places document).1
  rw [Node.Distinct, Node.tags_branch, List.map_cons, List.nodup_cons] at distinct
  refine List.inj_on_of_nodup_map distinct.2 inside (t.link_tag document all recorded) ?_
  rw [place, settle_place]

/-- A transformed document can be transformed again. -/
theorem documentTree (t : Transformed tree fresh index reflowed o root ns) (document : DocumentTree tree fresh) :
    DocumentTree o.forest.document o.forest.fresh := by
  have lengths := nodes_length o fresh (Report.detect index) ns
  have count : o.forest.fresh = fresh +
      (staged o.index (Report.detect index) [] (sections ns)).flatten.length := by rw [t.next, t.added]
  have tags : o.forest.document.tags.Perm ((Node.branch root .document ns).tags ++
      Node.freshTags fresh (staged o.index (Report.detect index) [] (sections ns)).flatten.length) := by
    have parts := attachAll_flatMap_perm tags_of_isBlankLine lengths
    rw [sections_flatten, numbered_tags] at parts
    rw [t.document, Node.tags_branch, Node.tags_branch]
    exact parts.cons root
  have old := t.left_places document
  generalize (staged o.index (Report.detect index) [] (sections ns)).flatten.length = added at count tags
  have new : ∀ tag ∈ Node.freshTags fresh added, fresh ≤ tag.place ∧ tag.place < fresh + added := by
    intro tag inside
    obtain ⟨place, inRange, rfl⟩ := List.mem_map.mp inside
    exact List.mem_range'_1.mp inRange
  refine ⟨?_, fun tag inside => ?_, root, _, t.document⟩
  · rw [Node.Distinct, (tags.map Tag.place).nodup_iff, List.map_append, List.nodup_append]
    refine ⟨old.1, ?_, fun a first b later => ?_⟩
    · rw [Node.freshTags, List.map_map]
      simpa [Function.comp_def] using @List.nodup_range' fresh added 1
    · obtain ⟨tag, inside, rfl⟩ := List.mem_map.mp first
      obtain ⟨tag', inside', rfl⟩ := List.mem_map.mp later
      have below := old.2 tag inside
      have above := (new tag' inside').1
      omega
  · rw [count]
    rcases List.mem_append.mp (tags.mem_iff.mp inside) with inside | inside
    · have below := old.2 tag inside
      omega
    · exact (new tag inside).2

end Transformed

end MarkdownLinks
