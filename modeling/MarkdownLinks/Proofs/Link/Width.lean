import MarkdownLinks.Proofs.Link.Definitions
import MarkdownLinks.Proofs.Link.Layout
import MarkdownLinks.Proofs.Link.Reattach

/-!
What a column width changes. Reflowing comes before the links are settled and the definitions are placed, and neither
looks at a text that has been wrapped: the run with a width ends in the document of the run without, rewrapped.
-/

namespace MarkdownLinks

open Rewriting

variable {tree : Node} {fresh : Nat} {index : Index} {o o' : Outcome} {root root' : Tag} {ns ns' : List Node}
  {texts : Nat → Option Text}

theorem cleaned_plain {ms : List Node} {old : List Text} (plain : ms.mapM plainText? = some old) (r : Option Tag)
    (records : List DefinitionRecord) (t : Tag) : cleaned r records t ms = ms := by
  have stays : ms.filter (!Node.carries (records.map (·.tag)) ·) = ms := by
    apply List.filter_eq_self.mpr
    intro m inside
    rw [Node.carries, tag?_of_mapM_plainText? plain m inside]
    rfl
  have shown : ∀ m ∈ ms, m.isBlankLine = false := by
    intro m inside
    obtain ⟨_, -, shows⟩ := eq_leaf_of_mapM_plainText? plain m inside
    exact shows
  rw [cleaned, stays, tidied]
  split
  · exact collapseBlankLines_of_shown shown _
  · rfl

namespace Transformed

/-- The nodes that are left of a rewrapped document are those that are left of the document, rewrapped. -/
theorem left_rewrap (t : Transformed tree fresh index tree o root ns)
    (t' : Transformed tree fresh index (tree.rewrap texts) o' root' ns') :
    Node.branch root' .document ns' = (Node.branch root .document ns).rewrap texts := by
  have tops := t'.sights.trans t.sights.symm
  rw [Node.sights_branch, Node.sights_branch] at tops
  obtain ⟨rfl, -⟩ := Sight.mk.inj (List.cons.inj tops).1
  calc
    Node.branch root' .document ns'
      = ((tree.rewrap texts).retag (settleAll index)).rebuild (cleaned (some root') index.definitions) := t'.left
    _ = ((tree.retag (settleAll index)).rewrap texts).rebuild (cleaned (some root') index.definitions) := by
      rw [Node.retag_rewrap settleAll_place]
    _ = ((tree.retag (settleAll index)).rebuild (cleaned (some root') index.definitions)).rewrap texts := by
      refine Node.rebuild_rewrap (fun u ms => ?_) (fun u text => ?_) _
      · exact cleaned_map (Node.carries_rebuild _ _) Node.rewrap_isBlankLine Iff.rfl Iff.rfl ms
      · have plain : [Node.leaf (.text text)].mapM plainText? = some [text] := rfl
        exact cleaned_plain plain _ _ u
    _ = (Node.branch root' .document ns).rewrap texts := by rw [t.left]

/-- A branch that is left in a place with a new text is a settled link that leads somewhere, with the old text. -/
theorem left_wraps (t : Transformed tree fresh index tree o root ns) (document : DocumentTree tree fresh)
    (all : index.Collected tree.walk) (wraps : Wraps (Report.detect index) index tree texts) {u : Tag} {c : Container}
    {ms : List Node} {text : Text} (member : .branch u c ms ∈ (Node.branch root .document ns).subnodes)
    (new : texts u.place = some text) :
    (∃ label position, c = .link (.reference label .shortcut) position) ∧
      ∃ old, ms.mapM plainText? = some old ∧ text.words = Text.words old.flatten := by
  rw [t.left] at member
  obtain ⟨ks, below, rfl⟩ := Node.of_mem_rebuild (keeps_cleaned _ _).tags member
  obtain ⟨v, d, js, given, settled, rfl⟩ := Node.of_mem_retag below
  have place := place_of_settleAll settled
  obtain ⟨r, inside, old, rfl, rfl, -, leads, plain, words⟩ := wraps.branch document.distinct given (place ▸ new)
  obtain ⟨url, resolved⟩ := Option.isSome_iff_exists.mp leads
  rw [settleAll_record document.distinct (document.tracks all) inside, settle_form resolved] at settled
  refine ⟨⟨_, _, (Prod.mk.inj settled).2.symm⟩, old, ?_, words⟩
  have same : (js.map (Node.retag (settleAll index))).map (Node.rebuild (cleaned (some root) index.definitions)) = js := by
    rw [map_of_mapM_plainText? plain fun _ => rfl, map_of_mapM_plainText? plain fun _ => rfl]
  rw [same, cleaned_plain plain, plain]

theorem root_unwrapped (t : Transformed tree fresh index tree o root ns) (document : DocumentTree tree fresh)
    (all : index.Collected tree.walk) (wraps : Wraps (Report.detect index) index tree texts) :
    texts root.place = none := by
  cases new : texts root.place with
  | none => rfl
  | some text =>
    obtain ⟨⟨_, _, link⟩, -⟩ := t.left_wraps document all wraps (Node.mem_subnodes_self _) new
    exact nomatch link

/-- The document of a run with a width is that of the run without, rewrapped. -/
theorem document_rewrap (t : Transformed tree fresh index tree o root ns) (document : DocumentTree tree fresh)
    (all : index.Collected tree.walk) (wraps : Wraps (Report.detect index) index tree texts)
    (t' : Transformed tree fresh index (tree.rewrap texts) o' root' ns') :
    o'.stats.added = o.stats.added ∧ o'.forest.document = o.forest.document.rewrap texts := by
  have left := t.left_rewrap t'
  have top := t.root_unwrapped document all wraps
  rw [Node.rewrap_branch, Node.rewrapped_of_none top] at left
  obtain ⟨rfl, -, rfl⟩ := Node.branch.inj left
  have keeps : KeepsLayout (Node.rewrap texts) := keepsLayout_rebuild _
  have tags : ∀ n ∈ ns, (n.rewrap texts).tags = n.tags := by
    intro n inside
    rw [Node.tags, Node.tags, Node.sights, Node.sights, Node.sightsFrom_rewrap]
    intro u c ms member isSome
    obtain ⟨text, new⟩ := Option.isSome_iff_exists.mp isSome
    obtain ⟨-, old, plain, -⟩ := t.left_wraps document all wraps (Node.mem_subnodes_of_child inside member) new
    exact tag?_of_mapM_plainText? plain
  have same : o'.index = o.index := t'.follows.trans t.follows.symm
  have sameStage := staged_map keeps tags o.index (Report.detect index)
  constructor
  · rw [t'.added, t.added, same, sameStage]
  · rw [t'.document, t.document, Node.rewrap_branch, Node.rewrapped_of_none top,
      keeps.placed Node.rewrap_definition, same, sameStage]

/-- A run with a width changes nothing but the lines of some texts of shortcut references. -/
theorem rewrapped (t : Transformed tree fresh index tree o root ns) (document : DocumentTree tree fresh)
    (all : index.Collected tree.walk) (wraps : Wraps (Report.detect index) index tree texts)
    (t' : Transformed tree fresh index (tree.rewrap texts) o' root' ns') :
    o'.stats = o.stats ∧ Rewrapped o.forest.document o'.forest.document := by
  obtain ⟨added, same⟩ := t.document_rewrap document all wraps t'
  constructor
  · have converted := t'.converted.trans t.converted.symm
    have conflicts := t'.conflicts.trans t.conflicts.symm
    calc
      o'.stats = ⟨o'.stats.converted, o'.stats.conflicts, o'.stats.added⟩ := rfl
      _ = o.stats := by rw [converted, conflicts, added]
  · have children := fun n inside => t.child_cases (n := n) inside
    rw [t.document, Node.children] at children
    rw [same, t.document, Node.rewrap_branch, Node.rewrapped_of_none (t.root_unwrapped document all wraps)]
    refine .branch root .document (Node.forall₂_map_right fun n inside => ?_)
    rcases children n inside with left | blank | ⟨place, label, target, rfl, -⟩
    · exact Node.rewrapped_rewrap fun u c ms text member new =>
        t.left_wraps document all wraps (Node.mem_subnodes_of_child left member) new
    · cases n with
      | leaf l => exact .leaf l
      | definition tag label target => exact absurd blank Bool.false_ne_true
      | branch tag container ms => exact absurd blank Bool.false_ne_true
    · exact .definition _ label target

end Transformed

/-- A column width changes nothing but the lines of some texts: the counters are the same, and so is the document but
for shortcut references with plain texts that have the words of their texts in other lines. -/
theorem transform_width_rewraps (next : Nat) (tag : Tag) (children : List Node) (width : Int) :
    let (tree, fresh) := Node.number next (.branch tag .document children)
    match tree.transform fresh none, tree.transform fresh (some width) with
    | .error e, .error e' => e = e'
    | .ok o, .ok o' => o'.stats = o.stats ∧ Rewrapped o.forest.document o'.forest.document ∧
      o'.forest.document.sights = o.forest.document.sights
    | _, _ => False := by
  have document := documentTree_number next tag children
  generalize Node.number next (.branch tag .document children) = numbered at document
  obtain ⟨tree, fresh⟩ := numbered
  dsimp only at document ⊢
  cases collect : Index.empty.collect tree with
  | error e =>
    rw [transform_error none collect, transform_error (some width) collect]
  | ok index =>
    have all := Index.collected collect
    obtain ⟨f, _, o, root, ns, plainly, done, t⟩ := transform_ok document none collect
    obtain ⟨g, _, o', root', ns', within, done', t'⟩ := transform_ok document (some width) collect
    obtain ⟨rfl, -⟩ := Prod.mk.inj (Except.ok.inj plainly)
    obtain ⟨texts, wraps, reflowed⟩ := reflowWithin_rewraps document collect within
    rw [reflowed] at t'
    obtain ⟨stats, rewrapped⟩ := t.rewrapped document all wraps t'
    rw [done, done']
    exact ⟨stats, rewrapped, rewrapped.sightsFrom .none⟩

end MarkdownLinks
