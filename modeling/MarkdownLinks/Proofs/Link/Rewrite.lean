import MarkdownLinks.Link.Rewrite
import MarkdownLinks.Proofs.Link.Conflict
import MarkdownLinks.Proofs.Link.Forest

/-!
Rewriting as one change of the tree. `settle` says what becomes of each link, looking at its record and the report
alone; after the records up to a place have been rewritten, the document is the old one with exactly their links
settled. Replaced links do not get in the way, because what they hold can still be reached through their places.
-/

namespace MarkdownLinks

/-- The records of links stand for links of the tree, in order, each below the parent it tells of. -/
structure Tracks (links : List LinkRecord) (tree : Node) : Prop where
  sights : (links.map (·.sight)).Sublist tree.sights
  below : ∀ r ∈ links, ∃ tag container, r.parent = .branch tag container

namespace Rewriting

/-- The node that comes to stand in the slot of a recorded link. -/
def settle (report : Report) (index : Index) (r : LinkRecord) : LinkNode :=
  match r.node.form with
  | .inline _ =>
    if report.isConflicting r.id || (report.resolvedUrl r.id).isNone then r.node
    else ⟨r.node.tag.next, .reference r.identity .shortcut, r.node.position⟩
  | .reference _ _ =>
    if report.isConflicting r.id then
      match index.resolve r.node.form with
      | (some url, title) => ⟨r.node.tag.next, .inline ⟨url, title⟩, r.node.position⟩
      | (none, _) => r.node
    else if (report.resolvedUrl r.id).isNone then r.node
    else ⟨r.node.tag, .reference r.identity .shortcut, r.node.position⟩

def settleRecord (report : Report) (index : Index) (r : LinkRecord) : LinkRecord :=
  { r with node := settle report index r }

/-- Whether a link is converted: an inline link of an identity with one destination. -/
def converts (report : Report) (r : LinkRecord) : Bool :=
  !r.node.form.isReference && !report.isConflicting r.id && (report.resolvedUrl r.id).isSome

/-- What becomes of a branch when the links of some records are settled. -/
def relink (report : Report) (index : Index) (rs : List LinkRecord) (t : Tag) (c : Container) : Tag × Container :=
  match rs.find? (·.node.tag = t) with
  | some r =>
    ((settle report index r).tag, .link (settle report index r).form (settle report index r).position)
  | none => (t, c)

theorem settle_position (report : Report) (index : Index) (r : LinkRecord) :
    (settle report index r).position = r.node.position := by
  unfold settle
  repeat' split
  all_goals rfl

theorem settle_place (report : Report) (index : Index) (r : LinkRecord) :
    (settle report index r).tag.place = r.node.tag.place := by
  unfold settle
  repeat' split
  all_goals rfl

/-- A link of an identity with one destination becomes a shortcut reference labelled with the identity. -/
theorem settle_form {report : Report} {index : Index} {r : LinkRecord} {url : Text}
    (sole : report.resolvedUrl r.id = some url) :
    (settle report index r).form = .reference r.identity .shortcut := by
  unfold settle
  cases r.node.form <;> simp [sole, Index.isConflicting_of_resolvedUrl sole]

theorem settle_form_of_soleTarget? {index : Index} {seen : List Visit} (all : index.Collected seen) {r : LinkRecord}
    (inside : r ∈ index.links) {target : Target} (sole : index.soleTarget? r.identity = some target) :
    (settle (Report.detect index) index r).form = .reference r.identity .shortcut := by
  apply settle_form
  rw [all.resolvedUrl inside, sole, Option.map_some]

theorem record_tag {rs : List LinkRecord} {t : Tag} {r : LinkRecord} (found : rs.find? (·.node.tag = t) = some r) :
    r.node.tag = t := by
  simpa using List.find?_some found

theorem relink_place (report : Report) (index : Index) (rs : List LinkRecord) (t : Tag) (c : Container) :
    (relink report index rs t c).1.place = t.place := by
  unfold relink
  split
  · rename_i r found
    rw [settle_place, record_tag found]
  · rfl

variable {report : Report} {index : Index} {tree : Node} {rs : List LinkRecord}

/-! ### Records and the tree -/

theorem Tracks_nodup (distinct : tree.Distinct) (tracks : Tracks rs tree) :
    (rs.map (·.node.tag.place)).Nodup := by
  have places := (tracks.sights.map fun s : Sight => s.tag.place)
  have all : (tree.sights.map fun s : Sight => s.tag.place).Nodup := by
    simpa [Node.Distinct, Node.tags, Function.comp_def] using distinct
  simpa [LinkRecord.sight, Function.comp_def] using all.sublist places

/-- The node of a record stands in the tree. -/
theorem Tracks_node (tracks : Tracks rs tree) {r : LinkRecord} (inside : r ∈ rs) :
    ∃ ns, .branch r.node.tag (.link r.node.form r.node.position) ns ∈ tree.subnodes := by
  have seen := tracks.sights.subset (List.mem_map_of_mem inside)
  rcases Node.face_of_mem_sightsFrom seen with ⟨_, _, face, -⟩ | ⟨c, ns, face, member⟩
  · exact nomatch face
  · obtain rfl := Face.branch.inj face
    exact ⟨ns, member⟩

theorem container_of_record (distinct : tree.Distinct) (tracks : Tracks rs tree) {r : LinkRecord} (inside : r ∈ rs)
    {c : Container} {ns : List Node} (member : .branch r.node.tag c ns ∈ tree.subnodes) :
    c = .link r.node.form r.node.position := by
  obtain ⟨ms, own⟩ := Tracks_node tracks inside
  have same := distinct.branch_inj member own rfl
  rw [(Node.branch.inj same).2.1]

/-! ### The swap of one child -/

/-- The node that a link with this tag is replaced by in its parent's list. -/
def swap (tag : Tag) (node : LinkNode) (n : Node) : Node :=
  if n.tag? = some tag then .branch node.tag (.link node.form node.position) n.children else n

theorem swap_of_ne {tag : Tag} {node : LinkNode} {n : Node} (other : n.tag? ≠ some tag) : swap tag node n = n :=
  if_neg other

theorem swap_others {tag : Tag} {node : LinkNode} (ns : List Node) (others : ∀ m ∈ ns, m.tag? ≠ some tag) :
    ns.map (swap tag node) = ns := by
  calc
    ns.map (swap tag node) = ns.map id := List.map_congr_left fun m inside => swap_of_ne (others m inside)
    _ = ns := List.map_id ns

/-- What becomes of a branch when the link with this tag becomes `node`. -/
def become (tag : Tag) (node : LinkNode) (t : Tag) (c : Container) : Tag × Container :=
  if t = tag then (node.tag, .link node.form node.position) else (t, c)

/-- Replacing a link in all lists of children is giving it another tag and form. -/
theorem swap_rebuild {tag : Tag} {node : LinkNode} {n : Node}
    (link : ∀ label target, .definition tag label target ∉ n.subnodes) :
    swap tag node (n.rebuild fun _ ns => ns.map (swap tag node)) =
      n.retag (become tag node) := by
  induction n with
  | leaf l => simp [swap, Node.tag?]
  | definition t label target =>
    have other : t ≠ tag := fun same => link label target (by simp [same])
    simp [swap, Node.tag?, other]
  | branch t c ns ih =>
    have below : (ns.map (Node.rebuild fun _ ns => ns.map (swap tag node))).map (swap tag node) =
        ns.map (Node.retag (become tag node)) := by
      rw [List.map_map]
      exact List.map_congr_left fun n inside =>
        ih n inside fun label target member => link label target (Node.mem_subnodes_of_child inside member)
    rw [Node.rebuild_branch, below, Node.retag_branch]
    by_cases own : t = tag
    · simp [swap, become, Node.tag?, Node.children, own]
    · simp [swap, become, Node.tag?, own]

theorem mapChildren_swap {f : Forest} (sole : f.Sole) {s : Sight} (seen : s ∈ f.document.sights) {own : Container}
    (face : s.face = .branch own) {parent t : Tag} {c : Container} (below : s.parent = .branch t c)
    (place : t.place = parent.place) (node : LinkNode) :
    f.mapChildren parent (·.map (swap s.tag node)) =
      { f with document := f.document.retag (become s.tag node) } := by
  have root : (f.document.rebuild fun _ ns => ns.map (swap s.tag node)).tag? ≠ some s.tag := by
    rw [Node.rebuild_tag?]
    exact sole.distinct.ne_root seen (by rw [below]; exact Parent.noConfusion)
  rw [sole.mapChildren seen below place swap_others, ← swap_rebuild (sole.distinct.not_definition seen face),
    swap_of_ne root]

/-! ### One record -/

/-- The state of rewriting after the links of some records have been settled and before those of others. -/
def between (report : Report) (start : Rewriting) (converted : Nat) (settled left : List LinkRecord) : Rewriting :=
  { forest := { start.forest with document := start.forest.document.retag (relink report start.index settled) }
    index := { start.index with links := settled.map (settleRecord report start.index) ++ left }
    converted }

/-- The trees when the links of some records have been settled. -/
def settledForest (report : Report) (start : Rewriting) (settled : List LinkRecord) : Forest :=
  { start.forest with document := start.forest.document.retag (relink report start.index settled) }

theorem relink_concat (r : LinkRecord) (t : Tag) (c : Container) :
    relink report index (rs ++ [r]) t c =
      if (rs.find? (·.node.tag = t)).isSome then relink report index rs t c
      else if r.node.tag = t then
        ((settle report index r).tag, .link (settle report index r).form (settle report index r).position)
      else (t, c) := by
  unfold relink
  rw [List.find?_append]
  cases rs.find? (·.node.tag = t) with
  | some r' => rfl
  | none => by_cases own : r.node.tag = t <;> simp [own]

variable {start : Rewriting} {settled left : List LinkRecord} {r : LinkRecord}

/-- What holds while the records are rewritten one after the other. -/
structure Ready (start : Rewriting) (settled : List LinkRecord) (r : LinkRecord) (left : List LinkRecord) : Prop where
  sole : start.forest.Sole
  tracks : Tracks (settled ++ r :: left) start.forest.document

theorem Ready.apart (ready : Ready start settled r left) {r' : LinkRecord} (other : r' ∈ settled ∨ r' ∈ left) :
    r'.node.tag.place ≠ r.node.tag.place := by
  have nodup := Tracks_nodup ready.sole.distinct ready.tracks
  rw [List.map_append, List.map_cons, List.nodup_append] at nodup
  rcases other with before | after
  · intro same
    exact nodup.2.2 _ (List.mem_map_of_mem before) _ List.mem_cons_self same
  · intro same
    exact (List.nodup_cons.mp nodup.2.1).1 (same ▸ List.mem_map_of_mem after)

theorem Ready.untouched (ready : Ready start settled r left) : settled.find? (·.node.tag = r.node.tag) = none :=
  List.find?_eq_none.mpr fun r' inside same =>
    ready.apart (Or.inl inside) (by rw [show r'.node.tag = r.node.tag by simpa using same])

theorem Ready.relink_self (ready : Ready start settled r left) (c : Container) :
    relink report index settled r.node.tag c = (r.node.tag, c) := by
  rw [relink, ready.untouched]

theorem Ready.seen (ready : Ready start settled r left) : r.sight ∈ start.forest.document.sights :=
  ready.tracks.sights.subset (List.mem_map_of_mem (List.mem_append_right _ List.mem_cons_self))

theorem Ready.settles (ready : Ready start settled r left) {φ : Tag → Container → Tag × Container}
    (own : φ r.node.tag (.link r.node.form r.node.position) =
      ((settle report start.index r).tag,
        .link (settle report start.index r).form (settle report start.index r).position))
    (others : ∀ t c, t.place ≠ r.node.tag.place → φ t c = (t, c)) :
    (start.forest.document.retag (relink report start.index settled)).retag φ =
      start.forest.document.retag (relink report start.index (settled ++ [r])) := by
  rw [Node.retag_retag]
  apply Node.retag_congr
  intro t c ns member
  rw [relink_concat]
  by_cases same : t = r.node.tag
  · subst same
    have container := container_of_record ready.sole.distinct ready.tracks
      (List.mem_append_right _ List.mem_cons_self) member
    simp only [ready.relink_self, ready.untouched, Option.isSome_none, Bool.false_eq_true, if_false, if_true]
    rw [container, own]
  · have apart : t.place ≠ r.node.tag.place := by
      intro place
      rcases Node.face_of_mem_sightsFrom ready.seen with ⟨_, _, face, -⟩ | ⟨_, _, _, member'⟩
      · exact nomatch face
      · exact same (Node.branch.inj (ready.sole.distinct.branch_inj member member' place)).1
    rw [others _ _ (by rw [relink_place]; exact apart), if_neg (Ne.symm same)]
    cases found : settled.find? (·.node.tag = t) with
    | some r' => simp
    | none => simp [relink, found]

theorem Ready.unsettled (ready : Ready start settled r left) (same : settle report start.index r = r.node) :
    start.forest.document.retag (relink report start.index settled) =
      start.forest.document.retag (relink report start.index (settled ++ [r])) := by
  rw [← ready.settles (φ := fun t c => (t, c)) (by rw [same]) fun _ _ _ => rfl]
  exact (Node.retag_eq_self fun _ _ _ _ => rfl).symm

theorem Ready.settled_sole (ready : Ready start settled r left) (report : Report) :
    (settledForest report start settled).Sole :=
  ⟨ready.sole.alone, ready.sole.distinct.retag (relink_place report start.index settled)⟩

theorem Ready.settled_seen (ready : Ready start settled r left) (report : Report) :
    ∃ s ∈ (settledForest report start settled).document.sights, s.tag = r.node.tag ∧
      s.face = .branch (.link r.node.form r.node.position) ∧
      s.parent = r.parent.retag (relink report start.index settled) := by
  refine ⟨r.sight.retag (relink report start.index settled), ?_, ?_⟩
  · rw [settledForest, Node.sights_retag]
    exact List.mem_map_of_mem ready.seen
  · simp only [Sight.retag, LinkRecord.sight, ready.relink_self]
    exact ⟨trivial, trivial, trivial⟩

theorem Ready.keep (ready : Ready start settled r left) (same : settle report start.index r = r.node) :
    settledForest report start settled = settledForest report start (settled ++ [r]) := by
  rw [settledForest, ready.unsettled same, settledForest]

/-- A record that follows the replacement of its link. -/
def replaced (r : LinkRecord) (form : LinkForm) : LinkRecord :=
  { r with node := { r.node with tag := r.node.tag.next, form } }

/-- A link that its parent holds is replaced, whatever records and counters there are beside it. -/
theorem Ready.replace? (ready : Ready start settled r left) {form : LinkForm}
    (becomes : settle report start.index r = ⟨r.node.tag.next, form, r.node.position⟩) {w : Rewriting}
    (here : w.forest = settledForest report start settled) (i : Nat) :
    w.replace? i r form = some { w with
      forest := settledForest report start (settled ++ [r])
      index := { w.index with links := w.index.links.set i (replaced r form) } } := by
  obtain ⟨tag, container, parent⟩ := ready.tracks.below r (List.mem_append_right _ List.mem_cons_self)
  have sole := ready.settled_sole report
  obtain ⟨s, seen, own, face, below⟩ := ready.settled_seen report
  rw [parent] at below
  have place := relink_place report start.index settled tag container
  have held := sole.holds seen below place container
  have swapped := mapChildren_swap sole seen face below place (settle report start.index r)
  rw [own] at held swapped
  have done : (start.forest.document.retag (relink report start.index settled)).retag
      (become r.node.tag (settle report start.index r)) =
      start.forest.document.retag (relink report start.index (settled ++ [r])) :=
    ready.settles (if_pos rfl) fun t c other => if_neg fun same => other (by rw [same])
  have swap_eq : (fun n : Node => if n.tag? = some r.node.tag then
      Node.branch r.node.tag.next (.link form r.node.position) n.children else n) =
      swap r.node.tag (settle report start.index r) := by
    rw [becomes]
    rfl
  rw [Rewriting.replace?, parent, here]
  simp only [held, if_true, swap_eq, swapped]
  simp only [settledForest, done, replaced, parent]

theorem mapAt_retag {f : Forest} (alone : f.others = []) (tag : Tag) (change : Container → Container) :
    f.mapAt tag (fun container children => .branch tag (change container) children) =
      { f with document := f.document.retag fun t c => if t = tag then (tag, change c) else (t, c) } := by
  rw [Forest.mapAt]
  simp only [alone, List.map_nil]
  congr 1
  apply Node.mapBranches_congr
  intro t c ns _
  by_cases own : t = tag
  · simp only [own, if_true]
  · simp only [own, if_false]

theorem Ready.relabel (ready : Ready start settled r left) {form : LinkForm}
    (becomes : settle report start.index r = ⟨r.node.tag, form, r.node.position⟩) {w : Rewriting}
    (here : w.forest = settledForest report start settled) :
    (w.relabel r.node.tag form).forest = settledForest report start (settled ++ [r]) := by
  have changed : ∀ change : Container → Container,
      change (.link r.node.form r.node.position) = .link form r.node.position →
      (start.forest.document.retag (relink report start.index settled)).retag
          (fun t c => if t = r.node.tag then (r.node.tag, change c) else (t, c)) =
        start.forest.document.retag (relink report start.index (settled ++ [r])) := fun change same =>
    ready.settles (by rw [if_pos rfl, same, becomes]) fun t c other => if_neg fun eq => other (by rw [eq])
  rw [Rewriting.relabel, here, mapAt_retag (ready.settled_sole report).alone]
  simp only [settledForest]
  rw [changed]
  rfl

end Rewriting
end MarkdownLinks
