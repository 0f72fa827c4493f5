import MarkdownLinks.Proofs.Link.Resolution

/-!
What rewriting makes of a document, said of its identities: each link becomes what the destinations of its identity ask
for, in its slot and with its children; the records follow; and a second run with the same report finds nothing to do,
although the records still name the parents that the links had before.
-/

namespace MarkdownLinks

open Rewriting

/-- The form that a link comes to have. If its identity has one destination, it is a shortcut reference to the identity;
if it has several, a reference that leads somewhere says so itself. -/
def Index.rewrittenForm (index : Index) (r : LinkRecord) : LinkForm :=
  match index.destinations r.identity with
  | [] => r.node.form
  | [_] => .reference r.identity .shortcut
  | _ :: _ :: _ =>
    match r.node.form, index.resolve r.node.form with
    | .reference _ _, (some url, title) => .inline ⟨url, title⟩
    | form, _ => form

/-- The node that a link becomes: another one if a reference turns inline or the other way round. -/
def Index.rewritten (index : Index) (r : LinkRecord) : LinkNode :=
  let form := index.rewrittenForm r
  ⟨if form.isReference = r.node.form.isReference then r.node.tag else r.node.tag.next, form, r.node.position⟩

/-- What becomes of a branch: a recorded link is rewritten, everything else stays as it is. -/
def Index.rewriteBranch (index : Index) (t : Tag) (c : Container) : Tag × Container :=
  match index.links.find? (·.node.tag = t) with
  | some r => ((index.rewritten r).tag, .link (index.rewritten r).form (index.rewritten r).position)
  | none => (t, c)

variable {index : Index} {tree : Node} {fresh : Nat} {seen : List Visit} {r : LinkRecord}

/-- The pass decides by the report what the destinations ask for. -/
theorem settle_eq_rewritten (all : index.Collected seen) (inside : r ∈ index.links) :
    settle (Report.detect index) index r = index.rewritten r := by
  have conflict := all.isConflicting inside
  have sole := all.resolvedUrl inside
  unfold Index.soleTarget? at sole
  unfold settle Index.rewritten Index.rewrittenForm
  rcases destinations : index.destinations r.identity with _ | ⟨url, _ | ⟨other, more⟩⟩
  · rw [destinations] at conflict sole
    cases form : r.node.form <;> simp_all [← form]
  · rw [destinations] at conflict sole
    cases form : r.node.form <;> simp_all [LinkForm.isReference]
  · rw [destinations] at conflict sole
    cases form : r.node.form with
    | inline target => simp_all [LinkForm.isReference, ← form]
    | reference label written =>
      rcases lead : index.resolve (.reference label written) with ⟨_ | url, title⟩ <;>
        simp_all [LinkForm.isReference, ← form]

theorem converts_eq (all : index.Collected seen) (inside : r ∈ index.links) : converts (Report.detect index) r =
    (!r.node.form.isReference && (index.destinations r.identity).length = 1) := by
  have sole := all.resolvedUrl inside
  unfold Index.soleTarget? at sole
  rw [converts, all.isConflicting inside, sole]
  rcases index.destinations r.identity with _ | ⟨url, _ | ⟨other, more⟩⟩ <;> simp

/-! ### A second run -/

theorem relabel_eq_self {w : Rewriting} (sole : w.forest.Sole) {tag : Tag} {form : LinkForm}
    (records : ∀ r ∈ w.index.links, r.node.tag = tag → r.node.form = form)
    (nodes : ∀ c ns, .branch tag c ns ∈ w.forest.document.subnodes → ∃ position, c = .link form position) :
    w.relabel tag form = w := by
  have kept : ∀ update : LinkRecord → LinkRecord, (∀ r ∈ w.index.links, update r = r) →
      w.index.links.map update = w.index.links := fun update same =>
    (List.map_congr_left same).trans (List.map_id _)
  have stays : ∀ change : Container → Container, (∀ position, change (.link form position) = .link form position) →
      w.forest.document.retag (fun t c => if t = tag then (tag, change c) else (t, c)) = w.forest.document := by
    intro change same
    refine Node.retag_eq_self fun t c ns member => ?_
    by_cases own : t = tag
    · subst own
      obtain ⟨position, rfl⟩ := nodes c ns member
      rw [if_pos rfl, same]
    · rw [if_neg own]
  rw [relabel, mapAt_retag sole.alone, stays _ fun _ => rfl, kept]
  intro r inside
  split
  · rename_i own
    rw [← records r inside own]
  · rfl

theorem settle_tag_inj (document : DocumentTree tree fresh) (all : index.Collected tree.walk) {q : LinkRecord}
    (inside : r ∈ index.links) (inside' : q ∈ index.links)
    (own : (settle (Report.detect index) index q).tag = (settle (Report.detect index) index r).tag) : q = r := by
  refine List.inj_on_of_nodup_map (Tracks_nodup document.distinct (document.tracks all)) inside' inside ?_
  rw [← settle_place (Report.detect index) index q, own, settle_place]

theorem container_of_settled (document : DocumentTree tree fresh) (all : index.Collected tree.walk)
    (inside : r ∈ index.links) {c : Container} {ns : List Node}
    (member : .branch (settle (Report.detect index) index r).tag c ns ∈ (tree.retag (settleAll index)).subnodes) :
    c = .link (settle (Report.detect index) index r).form (settle (Report.detect index) index r).position := by
  obtain ⟨u, d, ks, old, settled, rfl⟩ := Node.of_mem_retag member
  obtain ⟨js, own⟩ := Tracks_node (document.tracks all) inside
  have place : u.place = r.node.tag.place := by
    rw [place_of_settleAll settled, settle_place]
  obtain ⟨rfl, -, -⟩ := Node.branch.inj (document.distinct.branch_inj old own place)
  rw [settleAll_record document.distinct (document.tracks all) inside] at settled
  exact (Prod.mk.inj settled).2.symm

/-- A step over a link that has been settled does nothing, unless relabelling it does. -/
theorem step_settled (index : Index) (r : LinkRecord) {report : Report} {w : Rewriting} {i : Nat}
    (here : w.index.links[i]? = some (settleRecord report index r))
    (resolve : ∀ form, w.index.resolve form = index.resolve form)
    (labelled : (settle report index r).form = .reference r.identity .shortcut →
      w.relabel (settle report index r).tag (.reference r.identity .shortcut) = w) : step report w i = w := by
  simp only [step, here, resolve]
  change (if report.isConflicting r.id then _ else if (report.resolvedUrl r.id).isNone then w else _) = w
  cases conflict : report.isConflicting r.id with
  | true =>
    -- In conflict, a reference that is left as one leads nowhere.
    have stuck : ∀ label written, (settle report index r).form = .reference label written →
        (index.resolve (.reference label written)).1 = none := by
      intro label written shown
      unfold settle at shown
      cases form : r.node.form with
      | inline target => simp [form, conflict] at shown
      | reference label' written' =>
        rcases lead : index.resolve (.reference label' written') with ⟨_ | url, title⟩
        · simp only [form, conflict, lead, if_true] at shown
          rw [← shown, lead]
        · simp [form, conflict, lead] at shown
    rw [if_pos rfl]
    change (match (settle report index r).form, index.resolve (settle report index r).form with
      | .reference _ _, (some url, title) => _
      | _, _ => w) = w
    cases shown : (settle report index r).form with
    | inline target => rfl
    | reference label written =>
      have lost := stuck label written shown
      rcases lead : index.resolve (.reference label written) with ⟨_ | url, title⟩
      · rfl
      · rw [lead] at lost
        cases lost
  | false =>
    rw [if_neg Bool.false_ne_true]
    cases sole : report.resolvedUrl r.id with
    | none => rfl
    | some url =>
      have shown : (settle report index r).form = .reference r.identity .shortcut := settle_form sole
      rw [Option.isNone_some, if_neg Bool.false_ne_true]
      simp only [settleRecord, shown]
      exact labelled shown

/-! ### The whole pass -/

/-- What rewriting makes of a document. Only recorded links change, each in its slot; the records hold the nodes that
are in those slots afterwards; and another run changes neither the trees nor the records nor the counter. -/
structure LinksRewritten (tree : Node) (fresh : Nat) (index : Index) (converted : Nat) (w : Rewriting) : Prop where
  forest : w.forest = Forest.ofDocument (tree.retag index.rewriteBranch) fresh
  records : w.index = { index with links := index.links.map fun r => { r with node := index.rewritten r } }
  slots : ∀ r ∈ index.links, ∃ ns, .branch r.node.tag (.link r.node.form r.node.position) ns ∈ tree.subnodes ∧
    .branch (index.rewritten r).tag (.link (index.rewritten r).form r.node.position)
      (ns.map (Node.retag index.rewriteBranch)) ∈ w.forest.document.subnodes
  converted : w.converted = converted +
    index.links.countP fun r => !r.node.form.isReference && (index.destinations r.identity).length = 1
  again : w.run (Report.detect index) = w

theorem settleAll_eq_rewriteBranch (all : index.Collected tree.walk) : settleAll index = index.rewriteBranch := by
  funext t c
  unfold settleAll relink Index.rewriteBranch
  cases found : index.links.find? (·.node.tag = t) with
  | none => rfl
  | some r => simp only [settle_eq_rewritten all (List.mem_of_find?_eq_some found)]

theorem settledIndex_eq (all : index.Collected tree.walk) : settledIndex (Report.detect index) index =
    { index with links := index.links.map fun r => { r with node := index.rewritten r } } := by
  unfold settledIndex
  congr 1
  refine List.map_congr_left fun r inside => ?_
  rw [settleRecord, settle_eq_rewritten all inside]

theorem run_settled (document : DocumentTree tree fresh) (all : index.Collected tree.walk) (converted : Nat) :
    (Rewriting.mk (Forest.ofDocument tree fresh) index converted).run (Report.detect index) =
      ⟨Forest.ofDocument (tree.retag (settleAll index)) fresh, settledIndex (Report.detect index) index,
        converted + index.links.countP (converts (Report.detect index))⟩ := by
  rw [run_eq _ _ ⟨rfl, document.distinct⟩ (document.tracks all)]
  simp [between, settledIndex, settleAll, Forest.ofDocument]

theorem run_again (document : DocumentTree tree fresh) (all : index.Collected tree.walk) (converted : Nat) :
    (Rewriting.mk (Forest.ofDocument (tree.retag (settleAll index)) fresh) (settledIndex (Report.detect index) index)
      converted).run (Report.detect index) =
      ⟨Forest.ofDocument (tree.retag (settleAll index)) fresh, settledIndex (Report.detect index) index, converted⟩ := by
  have distinct := document.distinct.retag (φ := settleAll index) settleAll_place
  generalize same : Rewriting.mk (Forest.ofDocument (tree.retag (settleAll index)) fresh)
    (settledIndex (Report.detect index) index) converted = w
  have sole : w.forest.Sole := same ▸ ⟨rfl, distinct⟩
  have steps : ∀ i, step (Report.detect index) w i = w := by
    intro i
    cases here : w.index.links[i]? with
    | none => rw [step, here]
    | some record =>
      rw [← same, settledIndex, List.getElem?_map] at here
      obtain ⟨r, slot, rfl⟩ := Option.map_eq_some_iff.mp here
      have inside := List.mem_of_getElem? slot
      refine step_settled index r ?_ (fun form => ?_) fun shown => relabel_eq_self sole ?_ ?_
      · rw [← same, settledIndex, List.getElem?_map, slot]
        rfl
      · rw [← same]
        cases form <;> rfl
      · rw [← same]
        intro q' followed own
        obtain ⟨q, inside', rfl⟩ := List.mem_map.mp followed
        obtain rfl := settle_tag_inj document all inside inside' own
        exact shown
      · rw [← same]
        intro c ms member
        exact ⟨_, shown ▸ container_of_settled document all inside member⟩
  rw [run]
  induction List.range w.index.links.length with
  | nil => rfl
  | cons i is ih => rw [List.foldl_cons, steps, ih]

/-- Rewriting the links of a document whose links could be collected: a link becomes what its identity asks for, the
slots, the children and the positions stay, and to rewrite once more changes nothing. -/
theorem rewriteLinks_document (next : Nat) (tag : Tag) (children : List Node) (converted : Nat) :
    let (tree, fresh) := Node.number next (.branch tag .document children)
    match Index.empty.collect tree with
    | .error _ => tree.collectable = false
    | .ok index => LinksRewritten tree fresh index converted
      ((Rewriting.mk (Forest.ofDocument tree fresh) index converted).run (Report.detect index)) := by
  have document := documentTree_number next tag children
  generalize Node.number next (.branch tag .document children) = numbered at document
  obtain ⟨tree, fresh⟩ := numbered
  dsimp only at document ⊢
  cases collect : Index.empty.collect tree with
  | error e =>
    rw [← Node.collect_isOk Index.empty, collect]
    rfl
  | ok index =>
    have all := Index.collected collect
    have tracks := document.tracks all
    have ran := run_settled document all converted
    dsimp only
    refine ⟨?_, ?_, fun r inside => ?_, ?_, ?_⟩
    · rw [ran, settleAll_eq_rewriteBranch all]
    · rw [ran, settledIndex_eq all]
    · obtain ⟨ns, member⟩ := Tracks_node tracks inside
      refine ⟨ns, member, ?_⟩
      have moved := List.mem_map_of_mem (f := Node.retag (settleAll index)) member
      rw [← Node.subnodes_retag, Node.retag_branch, settleAll_record document.distinct tracks inside,
        settle_position, settle_eq_rewritten all inside, settleAll_eq_rewriteBranch all] at moved
      rw [ran, settleAll_eq_rewriteBranch all]
      exact moved
    · rw [ran]
      exact congrArg (converted + ·) (List.countP_congr fun r inside => by rw [converts_eq all inside])
    · rw [ran, run_again document all]

end MarkdownLinks
