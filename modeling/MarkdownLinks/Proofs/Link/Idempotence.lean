import MarkdownLinks.Proofs.Link.Flat
import MarkdownLinks.Proofs.Link.Repeat

/-!
When a second run changes nothing. The first run must be steady and tidy, and that is enough: otherwise other
definitions come first, other links change, or blank lines are taken out.
-/

namespace MarkdownLinks

open Rewriting

/-- A second run that leaves the document as it is, but for tags and positions, converts no link, and counts what the
first one counted. -/
structure Unchanged (o o' : Outcome) : Prop where
  document : o'.forest.document.bare = o.forest.document.bare
  stats : o'.stats = ⟨0, o.stats.conflicts, o.stats.added⟩

variable {tree doc : Node} {fresh next : Nat} {index after : Index} {o o' : Outcome} {root root' : Tag}
  {ns ns' : List Node}

theorem collapsed_of_bare {ms ms' : List Node} (tidy : collapseBlankLines true ms' = ms')
    (same : ms'.map Node.bare = ms.map Node.bare) : collapseBlankLines true ms = ms := by
  refine (collapseBlankLines_sublist true ms).eq_of_length ?_
  have bare := collapseBlankLines_map Node.bare_isBlankLine true
  have kept : (collapseBlankLines true ms).map Node.bare = ms.map Node.bare := by
    rw [bare, ← same, ← bare, tidy]
  simpa using congrArg List.length kept

namespace Reread

/-! ### What a steady run leaves -/

theorem converted (h : Reread tree fresh index o root ns doc next after) (steady : Steady index)
    (t' : Transformed doc next after doc o' root' ns') : o'.stats.converted = 0 := by
  rw [t'.converted, List.countP_eq_zero]
  intro r' inside' converted
  obtain ⟨⟨inline, -⟩, sole⟩ : ((!r'.node.form.isReference) = true ∧
      (!(Report.detect after).isConflicting r'.id) = true) ∧ ((Report.detect after).resolvedUrl r'.id).isSome := by
    simpa [converts, and_assoc] using converted
  obtain ⟨url, sole⟩ := Option.isSome_iff_exists.mp sole
  have form : (settle (Report.detect after) after r').form = .reference r'.identity .shortcut := settle_form sole
  rw [h.settled steady inside'] at form
  rw [form] at inline
  exact absurd inline Bool.false_ne_true

theorem conflicts (h : Reread tree fresh index o root ns doc next after) (steady : Steady index)
    (t' : Transformed doc next after doc o' root' ns') : o'.stats.conflicts = o.stats.conflicts := by
  have destinations : after.destinations = index.destinations := funext fun k => (h.targets steady k).1
  rw [t'.conflicts, h.run.conflicts, h.again.conflictsFound, h.all.conflictsFound, h.keys, destinations]

theorem added (h : Reread tree fresh index o root ns doc next after) (steady : Steady index)
    (t' : Transformed doc next after doc o' root' ns') : o'.stats.added = o.stats.added := by
  rw [t'.added_eq h.document' h.again, h.run.added_eq h.document h.all, h.soleTargets steady]

theorem unchanged (h : Reread tree fresh index o root ns doc next after) (steady : Steady index)
    (tidy : Tidy o.forest.document) (t' : Transformed doc next after doc o' root' ns') : Unchanged o o' := by
  refine ⟨h.document_again steady tidy t', ?_⟩
  have converted := h.converted steady t'
  have conflicts := h.conflicts steady t'
  have added := h.added steady t'
  obtain ⟨forest, index', ⟨c, f, a⟩, events⟩ := o'
  subst converted conflicts added
  rfl

/-! ### What a document that stays shows -/

theorem soleTarget?_of_bare (h : Reread tree fresh index o root ns doc next after)
    (t' : Transformed doc next after doc o' root' ns')
    (same : o'.forest.document.bare = o.forest.document.bare) (k : Text) :
    after.soleTarget? k = index.soleTarget? k := by
  have perm := t'.definitions_perm h.document' h.again
  rw [← Node.definitions_bare, same, ← h.alike, Node.definitions_bare] at perm
  apply Option.ext
  intro u
  have left := (perm.symm.trans h.definitions_perm).mem_iff (a := (k, u))
  rwa [Index.mem_soleTargets, Index.mem_soleTargets] at left

theorem form_of_bare (h : Reread tree fresh index o root ns doc next after)
    (t' : Transformed doc next after doc o' root' ns')
    (same : o'.forest.document.bare = o.forest.document.bare) {r' : LinkRecord} (inside' : r' ∈ after.links) :
    (settle (Report.detect after) after r').form = r'.node.form := by
  have tracks := h.document'.tracks h.again
  have forms : o'.forest.document.links.map Prod.snd = doc.links.map Prod.snd := by
    rw [← Node.forms_bare, same, ← h.alike, Node.forms_bare]
  rw [t'.links h.document' h.again, List.map_map, List.map_inj_left] at forms
  have own := forms _ (mem_links_of_record tracks inside')
  rw [Function.comp_apply, settledLink, find?_record h.document'.distinct tracks inside'] at own
  exact own

/-- If the document stays, identities with one identifier have one target: that of its first definition. -/
theorem apart_of_bare (h : Reread tree fresh index o root ns doc next after)
    (t' : Transformed doc next after doc o' root' ns')
    (same : o'.forest.document.bare = o.forest.document.bare) {k₁ k₂ : Text} {u₁ u₂ : Target}
    (sole₁ : index.soleTarget? k₁ = some u₁) (sole₂ : index.soleTarget? k₂ = some u₂)
    (identifiers : identifierOf k₁ = identifierOf k₂) : u₁ = u₂ := by
  obtain ⟨k, v, -, -, lead⟩ := h.again.resolve_of_perm h.definitions_perm sole₁
  have target₁ := (h.targets_settled sole₁ (lead k₁ .shortcut rfl)).2
  have target₂ := (h.targets_settled sole₂ (lead k₂ .shortcut identifiers.symm)).2
  rw [h.soleTarget?_of_bare t' same, sole₁] at target₁
  rw [h.soleTarget?_of_bare t' same, sole₂] at target₂
  exact Option.some.inj (target₁.trans target₂.symm)

theorem steady_of_bare (h : Reread tree fresh index o root ns doc next after)
    (t' : Transformed doc next after doc o' root' ns')
    (same : o'.forest.document.bare = o.forest.document.bare) : Steady index := by
  have apart : ∀ k₁ k₂ u₁ u₂, index.soleTarget? k₁ = some u₁ → index.soleTarget? k₂ = some u₂ →
      identifierOf k₁ = identifierOf k₂ → u₁ = u₂ := fun k₁ k₂ u₁ u₂ sole₁ sole₂ identifiers =>
    h.apart_of_bare t' same sole₁ sole₂ identifiers
  refine ⟨apart, fun r inside several lost label written form => ?_⟩
  have noCollision : NoCollision index := fun k₁ k₂ u₁ u₂ sole₁ sole₂ identifiers =>
    congrArg Target.dest (apart k₁ k₂ u₁ u₂ sole₁ sole₂ identifiers)
  rw [← noCollision.resolve_reference h.again h.definitions_perm label written]
  obtain ⟨r', inside', stays, identity⟩ := h.mem_wordings.mpr ⟨r, inside, rfl, rfl⟩
  rw [settle_eq_self h.all inside several lost, form] at stays
  -- A link that came to lead somewhere would take that along.
  have several' : after.soleTarget? r'.identity = none := by
    rw [h.soleTarget?_of_bare t' same, identity, several]
  rcases settle_cases h.again inside' several' with ⟨target, url, inline, -⟩ | ⟨-, lost'⟩
  · rw [h.form_of_bare t' same inside', stays] at inline
    exact nomatch inline
  · rwa [stays] at lost'

theorem tidy_of_bare (h : Reread tree fresh index o root ns doc next after)
    (t' : Transformed doc next after doc o' root' ns')
    (same : o'.forest.document.bare = o.forest.document.bare) : Tidy o.forest.document := by
  obtain ⟨-, left⟩ := h.left (h.steady_of_bare t' same) t'
  by_cases empty : after.definitions = []
  · exact Or.inl (h.definitions_eq_nil.mp empty)
  · right
    rw [if_neg empty] at left
    have children : o'.forest.document.children.map Node.bare = o.forest.document.children.map Node.bare := by
      rw [t'.document, h.run.document, Node.bare_branch, Node.bare_branch] at same
      rw [t'.document, h.run.document]
      exact (Node.branch.inj same).2.2
    refine collapsed_of_bare ?_ children
    refine t'.collapsed_children ?_
    rw [left]
    exact collapseBlankLines_twice true _

theorem unchanged_iff (h : Reread tree fresh index o root ns doc next after)
    (t' : Transformed doc next after doc o' root' ns') : Unchanged o o' ↔ Steady index ∧ Tidy o.forest.document := by
  constructor
  · intro same
    exact ⟨h.steady_of_bare t' same.document, h.tidy_of_bare t' same.document⟩
  · rintro ⟨steady, tidy⟩
    exact h.unchanged steady tidy t'

end Reread

/-! ### Texts -/

theorem transformText_again {t : Text} {index : Index} {o : Outcome} {root : Tag} {ns : List Node}
    (collect : Index.empty.collect (Document.parse t) = .ok index)
    (run : Transformed (Document.parse t) (Document.parseFrom 0 t).2 index (Document.parse t) o root ns) {out : Text}
    (alike : (Document.parse out).bare = o.forest.document.bare) :
    ∃ o', (Document.parse out).transform (Document.parseFrom 0 out).2 none = .ok o' ∧
      transformText out none = o'.forest.document.render.map (·, o'.stats) ∧
      (Unchanged o o' ↔ Steady index ∧ Tidy o.forest.document) := by
  obtain ⟨after₀, collected⟩ := run.collect_ok
  obtain ⟨after, collect'⟩ := collect_ok_of_bare collected alike
  obtain ⟨o', root', ns', run', done, written⟩ := transformText_ok collect'
  have reread : Reread (Document.parse t) (Document.parseFrom 0 t).2 index o root ns (Document.parse out)
      (Document.parseFrom 0 out).2 after :=
    ⟨run, documentTree_parse t, Index.collected collect, Document.parseFrom_flat 0 t,
      documentTree_parse out, Index.collected collect', alike⟩
  exact ⟨o', done, written, reread.unchanged_iff run'⟩

theorem Prose.collapsed (p : Prose) : collapseBlankLines true p.tree.children = p.tree.children := by
  rw [Prose.tree, Node.children]
  induction p.paragraphs with
  | nil =>
    refine collapseBlankLines_of_shown (fun n inside => ?_) true
    obtain ⟨d, -, rfl⟩ := List.mem_map.mp inside
    rfl
  | cons l ls ih => exact congrArg (paragraphNodes l ++ ·) ih

/-- Prose is tidy, so a second run leaves it as it is if the first one was steady. -/
theorem Prose.stays (p : Prose) {t : Text} {index : Index} {o : Outcome}
    (collect : Index.empty.collect (Document.parse t) = .ok index)
    (run : (Document.parse t).transform (Document.parseFrom 0 t).2 none = .ok o)
    (written : o.forest.document.bare = p.tree) (steady : Steady index) :
    transformText p.write none = .ok (p.write, ⟨0, o.stats.conflicts, o.stats.added⟩) := by
  obtain ⟨o₁, root, ns, transformed, run', -⟩ := transformText_ok collect
  obtain rfl : o = o₁ := Except.ok.inj (run.symm.trans run')
  obtain ⟨o', -, again, unchanged⟩ := transformText_again collect transformed (p.parse_write.trans written.symm)
  have children : p.tree.children.map Node.bare = o.forest.document.children.map Node.bare := by
    rw [← Node.children_bare, ← Node.children_bare, p.tree_bare, written]
  have tidy : Tidy o.forest.document := Or.inr (collapsed_of_bare p.collapsed children)
  obtain ⟨document, stats⟩ := unchanged.mpr ⟨steady, tidy⟩
  rw [again, p.render_of_bare (document.trans written), stats]
  rfl

/-- What a second run makes of the text that a first one has written, if both write texts that are read as the trees
they were written from: the same text, with nothing to convert and the same counters, exactly if the first run was
steady and tidy. -/
theorem transformText_twice (t : Text) :
    match Index.empty.collect (Document.parse t) with
    | .error e => transformText t none = .error e
    | .ok index => ∃ o, (Document.parse t).transform (Document.parseFrom 0 t).2 none = .ok o ∧
      transformText t none = o.forest.document.render.map (·, o.stats) ∧
      (ReadsBack o.forest.document → ∀ out, o.forest.document.render = .ok out →
        ∃ o', (Document.parse out).transform (Document.parseFrom 0 out).2 none = .ok o' ∧
          transformText out none = o'.forest.document.render.map (·, o'.stats) ∧
          (ReadsBack o'.forest.document → (transformText out none = .ok (out, ⟨0, o.stats.conflicts, o.stats.added⟩) ↔
            Steady index ∧ Tidy o.forest.document))) := by
  cases collect : Index.empty.collect (Document.parse t) with
  | error e => exact transformText_error collect
  | ok index =>
    obtain ⟨o, root, ns, run, done, written⟩ := transformText_ok collect
    refine ⟨o, done, written, fun readsBack out first => ?_⟩
    obtain ⟨o', done', written', unchanged⟩ := transformText_again collect run (readsBack out first)
    refine ⟨o', done', written', fun readsBack' => ?_⟩
    rw [← unchanged, written']
    constructor
    · intro same
      obtain ⟨text, second, counters⟩ : ∃ text, o'.forest.document.render = .ok text ∧
          (text, o'.stats) = (out, ⟨0, o.stats.conflicts, o.stats.added⟩) := by
        cases second : o'.forest.document.render with
        | error e =>
          rw [second] at same
          exact nomatch same
        | ok text =>
          rw [second] at same
          exact ⟨text, rfl, Except.ok.inj same⟩
      obtain ⟨rfl, stats⟩ := Prod.mk.inj counters
      exact ⟨(readsBack' text second).symm.trans (readsBack text first), stats⟩
    · rintro ⟨document, stats⟩
      rw [Node.render_congr document, first, stats]
      rfl

/-- What is written for the guide stays, so the first run was steady and tidy. -/
theorem guide_settled : ∃ index o, Index.empty.collect (Document.parse guide) = .ok index ∧
    (Document.parse guide).transform (Document.parseFrom 0 guide).2 none = .ok o ∧ Steady index ∧ Tidy o.forest.document ∧
      transformText writtenGuide.write none = .ok (writtenGuide.write, ⟨0, 0, 3⟩) := by
  have stays : transformText writtenGuide.write none = .ok (writtenGuide.write, ⟨0, 0, 3⟩) := by decide +kernel
  have again : ((Document.parse writtenGuide.write).transform (Document.parseFrom 0 writtenGuide.write).2 none).map
      (·.forest.document.bare) = .ok writtenGuide.tree := by decide +kernel
  have collects := guide_collect
  have outcome := guide_transform
  generalize guide = t at collects outcome ⊢
  have all := transformText_twice t
  cases collect : Index.empty.collect (Document.parse t) with
  | error e =>
    rw [collect] at collects
    exact nomatch collects
  | ok index =>
    simp only [collect] at all
    obtain ⟨o, run, -, second⟩ := all
    rw [run] at outcome
    obtain ⟨document, stats⟩ := Prod.mk.inj (Except.ok.inj outcome)
    obtain ⟨o', run', -, same⟩ := second (writtenGuide.readsBack document) _ (writtenGuide.render_of_bare document)
    rw [run'] at again
    rw [stats] at same
    obtain ⟨steady, tidy⟩ := (same (writtenGuide.readsBack (Except.ok.inj again))).mp stays
    exact ⟨index, o, rfl, run, steady, tidy, stays⟩

/-- A second run can change the definitions: a label in another case leads to the definition that comes first. -/
theorem second_run_changes_definition :
    transformText "[Foo](a) [foo](b)\n".toList none = .ok ("[Foo] [foo]\n\n[Foo]: a\n[foo]: b\n".toList, ⟨2, 0, 2⟩) ∧
      transformText "[Foo] [foo]\n\n[Foo]: a\n[foo]: b\n".toList none =
        .ok ("[Foo] [foo]\n\n[Foo]: a\n[foo]: a\n".toList, ⟨0, 0, 2⟩) := by
  decide +kernel

end MarkdownLinks
