import Mathlib.Data.List.Chain
import MarkdownLinks.Proofs.Link.Idempotence
import MarkdownLinks.Proofs.Link.Rewrap
import MarkdownLinks.Proofs.Link.Width

/-!
Documents that one run brings into their final form. What a second run needs is said here of the document that is
given, with or without a column width: reflowing does not change what the run decides, and finds nothing to wrap when
it comes again.
-/

namespace MarkdownLinks

open Rewriting

variable {tree : Node} {fresh : Nat} {index : Index} {o o' : Outcome} {root root' : Tag} {ns ns' : List Node}

/-- What a document has to be like for its links and its blank lines to be settled by one run. -/
structure Settling (tree : Node) (index : Index) : Prop where
  apart : ∀ k₁ ∈ index.keys, ∀ k₂ ∈ index.keys, (index.soleTarget? k₁).isSome → (index.soleTarget? k₂).isSome →
    identifierOf k₁ = identifierOf k₂ → k₁ = k₂
  leads : ∀ r ∈ index.links, r.node.form.isReference →
    (index.soleTarget? r.identity).isSome ∨ (index.resolve r.node.form).1.isSome
  opening : ∀ n ∈ tree.children.head?, n.isBlankLine = false
  spaced : tree.children.IsChain fun m n => m.isBlankLine → n.isBlankLine = false

instance (tree : Node) (index : Index) : Decidable (Settling tree index) :=
  decidable_of_iff
    ((∀ k₁ ∈ index.keys, ∀ k₂ ∈ index.keys, (index.soleTarget? k₁).isSome → (index.soleTarget? k₂).isSome →
        identifierOf k₁ = identifierOf k₂ → k₁ = k₂) ∧
      (∀ r ∈ index.links, r.node.form.isReference →
        (index.soleTarget? r.identity).isSome ∨ (index.resolve r.node.form).1.isSome) ∧
      (∀ n ∈ tree.children.head?, n.isBlankLine = false) ∧
      tree.children.IsChain fun m n => m.isBlankLine → n.isBlankLine = false)
    ⟨fun ⟨apart, leads, opening, spaced⟩ => ⟨apart, leads, opening, spaced⟩,
      fun ⟨apart, leads, opening, spaced⟩ => ⟨apart, leads, opening, spaced⟩⟩

namespace Settling

theorem steady (settling : Settling tree index) : Steady index := by
  refine ⟨fun k₁ k₂ t₁ t₂ sole₁ sole₂ same => ?_, fun r inside several lost label written form => ?_⟩
  · obtain ⟨r₁, inside₁, own₁, -⟩ := Index.exists_of_soleTarget? sole₁
    obtain ⟨r₂, inside₂, own₂, -⟩ := Index.exists_of_soleTarget? sole₂
    obtain rfl := settling.apart k₁ (Index.mem_keys.mpr ⟨r₁, inside₁, own₁⟩) k₂ (Index.mem_keys.mpr ⟨r₂, inside₂, own₂⟩)
      (by rw [sole₁]; rfl) (by rw [sole₂]; rfl) same
    exact Option.some.inj (sole₁.symm.trans sole₂)
  · rcases settling.leads r inside (by rw [form]; rfl) with sole | leads
    · rw [several] at sole
      exact nomatch sole
    · rw [lost] at leads
      exact nomatch leads

end Settling

theorem collapse_of_spaced {ms : List Node} (spaced : ms.IsChain fun m n => m.isBlankLine → n.isBlankLine = false)
    {skip : Bool} (opening : skip = true → ∀ n ∈ ms.head?, n.isBlankLine = false) :
    collapseBlankLines skip ms = ms := by
  induction ms generalizing skip with
  | nil => rfl
  | cons n ms ih =>
    obtain ⟨next, spaced⟩ := List.isChain_cons.mp spaced
    rw [collapseBlankLines]
    split
    · rename_i blank
      have shown : skip ≠ true := fun skips => by
        rw [opening skips n rfl] at blank
        cases blank
      rw [if_neg shown, ih spaced fun _ m inside => next m inside blank]
    · have later : collapseBlankLines false ms = ms := ih spaced fun skips => absurd skips Bool.false_ne_true
      rw [later]

theorem Settling.collapsed (settling : Settling tree index) : collapseBlankLines true tree.children = tree.children :=
  collapse_of_spaced settling.spaced fun _ => settling.opening

namespace Transformed

/-- If no blank lines of a document come together, none do in what is left of it. -/
theorem collapsed_left (t : Transformed tree fresh index tree o root ns) (document : DocumentTree tree fresh)
    (all : index.Collected tree.walk) (tidy : collapseBlankLines true tree.children = tree.children) :
    collapseBlankLines true ns = ns := by
  have tagged := t.root_tag? document all
  have left := t.left
  rw [t.settled_root document all, Node.rebuild_branch, List.map_map] at left
  obtain ⟨-, -, left⟩ := Node.branch.inj left
  obtain ⟨tag, children, rfl⟩ := document.root
  obtain rfl : tag = root := Option.some.inj tagged
  by_cases emptied : tag ∈ index.definitions.filterMap (·.parent.tag?)
  · rw [left, cleaned, tidied, if_pos emptied, decide_eq_true rfl]
    exact collapseBlankLines_twice true _
  · -- No child is a definition, so all children stay.
    have stays : ∀ m ∈ children, Node.carries (index.definitions.map (·.tag)) ((Node.rebuild (cleaned (some tag)
        index.definitions) ∘ Node.retag (settleAll index)) m) = false := by
      intro m inside
      rw [Function.comp_apply, Node.carries_rebuild, carries_retag document.distinct all settleAll_place
        (Node.mem_subnodes_of_child inside (Node.mem_subnodes_self m)), Option.isSome_eq_false_iff]
      by_contra definition
      exact emptied (parent_recorded document all (Node.mem_subnodes_self _) inside
        (mt Option.isNone_iff_eq_none.mpr definition))
    have blank : ∀ n : Node, ((Node.rebuild (cleaned (some tag) index.definitions) ∘ Node.retag (settleAll index))
        n).isBlankLine = n.isBlankLine := by
      intro n
      rw [Function.comp_apply, Node.rebuild_isBlankLine]
      cases n <;> rfl
    rw [left, cleaned, tidied, if_neg emptied, List.filter_eq_self.mpr, ← collapseBlankLines_map blank, tidy]
    intro n inside
    obtain ⟨m, among, rfl⟩ := List.mem_map.mp inside
    rw [stays m among]
    rfl

/-- A run over a document is a run over the document with its texts wrapped. -/
theorem rewrap {texts : Nat → Option Text} (t : Transformed tree fresh index (tree.rewrap texts) o root ns)
    (sights : (tree.rewrap texts).sights = tree.sights) :
    Transformed (tree.rewrap texts) fresh index (tree.rewrap texts) o root ns :=
  ⟨t.follows, t.conflicts, t.converted, t.added, t.next, t.document, t.left, sights ▸ t.sights, t.collectable⟩

end Transformed

/-! ### Positions -/

/-- Lists that agree in one view and in the elements of a kind agree in a finer view that sees no more of the others. -/
theorem map_eq_of_filter {α β γ : Type} {f : α → β} {g : α → γ} {p : α → Bool} {as bs : List α}
    (view : as.map f = bs.map f) (kept : as.filter p = bs.filter p) (kind : ∀ a b, f a = f b → p a = p b)
    (others : ∀ a b, f a = f b → p a = false → g a = g b) : as.map g = bs.map g := by
  induction as generalizing bs with
  | nil =>
    cases bs with
    | nil => rfl
    | cons b bs => exact nomatch view
  | cons a as ih =>
    cases bs with
    | nil => exact nomatch view
    | cons b bs =>
      obtain ⟨first, later⟩ := List.cons.inj view
      have same := kind a b first
      cases own : p a with
      | true =>
        rw [List.filter_cons_of_pos own, List.filter_cons_of_pos (same ▸ own)] at kept
        obtain ⟨rfl, rest⟩ := List.cons.inj kept
        rw [List.map_cons, List.map_cons, ih later rest]
      | false =>
        have other : ¬ p b = true := by rw [← same, own]; exact Bool.false_ne_true
        rw [List.filter_cons_of_neg (by rw [own]; exact Bool.false_ne_true), List.filter_cons_of_neg other] at kept
        rw [List.map_cons, List.map_cons, ih later kept, others a b first own]

/-- Whether a node is neither a blank line nor a definition, so that it holds text. -/
def Node.isContent (n : Node) : Bool := !n.isBlankLine && n.definition?.isNone

theorem Node.isContent_bare (n : Node) : n.bare.isContent = n.isContent := by
  rw [isContent, isContent, bare_isBlankLine, definition?_bare]

theorem Node.untagged_of_bare {n m : Node} (same : n.bare = m.bare) (other : n.isContent = false) :
    n.untagged = m.untagged := by
  have other' : m.isContent = false := by rw [← isContent_bare, ← same, isContent_bare, other]
  cases n with
  | leaf l =>
    cases m with
    | leaf l' => exact same
    | definition tag label target => exact nomatch same
    | branch tag container ns =>
      rw [bare_branch] at same
      exact nomatch same
  | definition tag label target =>
    cases m with
    | leaf l => exact nomatch same
    | definition tag' label' target' => exact same
    | branch tag' container ns =>
      rw [bare_branch] at same
      exact nomatch same
  | branch tag container ns => exact nomatch other

theorem filter_isContent (ms : List Node) :
    ms.filter Node.isContent = ms.flatMap fun n => if n.isContent then [n] else [] := by
  simpa using Node.flatMap_filter Node.isContent (fun n => [n]) ms

theorem isContent_silent (n : Node) (blank : n.isBlankLine) : (if n.isContent then [n] else []) = [] := by
  rw [Node.isContent, blank]
  rfl

theorem stripped_content (ms : List Node) : (stripped ms).filter Node.isContent = ms.filter Node.isContent := by
  rw [filter_isContent, stripped, collapseBlankLines_flatMap isContent_silent, ← filter_isContent, List.filter_filter]
  refine List.filter_congr fun n _ => ?_
  rw [Node.isContent, Bool.and_assoc, Bool.and_self]

theorem Transformed.content (t : Transformed tree fresh index tree o root ns) :
    o.forest.document.children.filter Node.isContent = ns.filter Node.isContent := by
  have blind : ∀ n ∈ (numbered fresh (staged o.index (Report.detect index) [] (sections ns))).flatten,
      (if n.isContent then [n] else []) = [] := by
    intro n inside
    obtain ⟨nodes, among, inside⟩ := List.mem_flatten.mp inside
    obtain ⟨place, label, target, rfl, -⟩ := attached among inside
    rfl
  rw [filter_isContent, filter_isContent, t.document, Node.children,
    attachAll_flatMap_old isContent_silent (nodes_length o fresh _ ns) blind, sections_flatten]

/-- After a steady and tidy run, a second one leaves the document as it is, positions included. -/
theorem Reread.document_untagged {doc : Node} {next : Nat} {after : Index}
    (h : Reread tree fresh index o root ns doc next after) (steady : Steady index) (tidy : Tidy o.forest.document)
    (t' : Transformed doc next after doc o' root' ns') : o'.forest.document.untagged = doc.untagged := by
  obtain ⟨tagged, left⟩ := h.left steady t'
  have bare := (h.document_again steady tidy t').trans h.alike.symm
  have content := t'.content
  have kept : ns'.filter Node.isContent = doc.children.filter Node.isContent := by
    rw [left]
    split
    · rfl
    · exact stripped_content _
  rw [kept] at content
  obtain ⟨top, children, rfl⟩ := h.document'.root
  obtain rfl : top = root' := Option.some.inj tagged
  rw [t'.document] at bare content ⊢
  rw [Node.bare_branch, Node.bare_branch] at bare
  rw [Node.untagged_branch, Node.untagged_branch]
  congr 1
  refine map_eq_of_filter (Node.branch.inj bare).2.2 content (fun n m same => ?_) fun n m => Node.untagged_of_bare
  rw [← Node.isContent_bare, same, Node.isContent_bare]

/-! ### Running twice -/

/-- After a steady run no link is left to be wrapped. -/
theorem Reread.no_wraps {doc : Node} {next : Nat} {after : Index}
    (h : Reread tree fresh index o root ns doc next after) (steady : Steady index) {texts : Nat → Option Text}
    (wraps : Wraps (Report.detect after) after doc texts) : doc.rewrap texts = doc := by
  refine Node.rebuild_eq_self fun t c ms member => Node.rewrapped_of_none ?_ ms
  cases new : texts t.place with
  | none => rfl
  | some text =>
    obtain ⟨r, old, wrappable, -⟩ := wraps _ _ new
    obtain ⟨url, sole⟩ := Option.isSome_iff_exists.mp wrappable.leads
    have form : (settle (Report.detect after) after r).form = .reference r.identity .shortcut := settle_form sole
    have inline := wrappable.inline
    rw [← h.settled steady wrappable.recorded, form] at inline
    exact nomatch inline

/-- Two runs over a document, the second over what the first one made, where the second changes nothing, converts no
link and counts what the first one counted. -/
def FixedByOneRun (tree : Node) (fresh : Nat) (width : Option Int) : Prop :=
  ∃ o o', tree.transform fresh width = .ok o ∧ o.forest.document.transform o.forest.fresh width = .ok o' ∧
    o'.forest.document.untagged = o.forest.document.untagged ∧
    o'.forest.document.render = o.forest.document.render ∧ o'.stats = ⟨0, o.stats.conflicts, o.stats.added⟩

/-- One run settles a document if no link has links or definitions in its text, identities with one destination have
different identifiers, references of other identities lead somewhere, and no blank lines come together at its top
level. -/
theorem transform_twice_unchanged (next : Nat) (tag : Tag) (children : List Node) (width : Option Int) :
    let (tree, fresh) := Node.number next (.branch tag .document children)
    match Index.empty.collect tree with
    | .error e => tree.transform fresh width = .error e
    | .ok index => tree.flat → Settling tree index → FixedByOneRun tree fresh width := by
  have document := documentTree_number next tag children
  generalize Node.number next (.branch tag .document children) = numbered at document
  obtain ⟨tree, fresh⟩ := numbered
  dsimp only at document ⊢
  cases collect : Index.empty.collect tree with
  | error e => exact transform_error width collect
  | ok index =>
    intro flat settling
    have all := Index.collected collect
    obtain ⟨f, _, o, root, ns, within, done, t⟩ := transform_ok document width collect
    obtain ⟨texts, wraps, reflowed⟩ := reflowWithin_rewraps document collect within
    rw [reflowed] at t
    -- The run is one over the wrapped document, to which the index belongs as well.
    have start := t.rewrap (wraps.sights document.distinct)
    have document₁ := document.rewrap wraps
    have all₁ := all.rewrap document.distinct flat wraps
    have document₂ := start.documentTree document₁
    obtain ⟨after, collect'⟩ := start.collect_ok
    obtain ⟨f', _, o', root', ns', within', done', t'⟩ := transform_ok document₂ width collect'
    obtain ⟨texts', wraps', reflowed'⟩ := reflowWithin_rewraps document₂ collect' within'
    have h : Reread (tree.rewrap texts) fresh index o root ns o.forest.document o.forest.fresh after :=
      ⟨start, document₁, all₁, wraps.flat document.distinct flat, document₂, Index.collected collect', rfl⟩
    rw [reflowed', h.no_wraps settling.steady wraps'] at t'
    have tidy : Tidy o.forest.document := by
      refine Or.inr (start.collapsed_children (start.collapsed_left document₁ all₁ ?_))
      rw [document.children_rewrap wraps, ← collapseBlankLines_map Node.rewrap_isBlankLine, settling.collapsed]
    have unchanged := h.unchanged settling.steady tidy t'
    exact ⟨o, o', done, done', h.document_untagged settling.steady tidy t', Node.render_congr unchanged.document,
      unchanged.stats⟩

/-- The children of a document with a link of a long text, two links in conflict, and a reference with its definition. -/
def mixedLinks : List Node :=
  [.fresh .paragraph [
      .fresh (.link (.inline ⟨"u".toList, none⟩) (some ⟨⟨1, 1⟩, ⟨1, 25⟩⟩)) [.leaf (.text "several words in one line".toList)],
      .fresh (.link (.inline ⟨"v".toList, none⟩) none) [.leaf (.text "b".toList)],
      .fresh (.link (.inline ⟨"w".toList, none⟩) none) [.leaf (.text "b".toList)]],
    .leaf .blankLine,
    .fresh .paragraph [.fresh (.link (.reference "c".toList .full) none) [.leaf (.text "d".toList)]],
    .definition ⟨0, 0⟩ "C".toList ⟨"x".toList, some "t".toList⟩]

theorem mixedLinks_settled : let (tree, fresh) := Node.number 0 (.branch ⟨0, 0⟩ .document mixedLinks)
    tree.flat ∧ (∃ index, Index.empty.collect tree = .ok index ∧ Settling tree index) ∧
      FixedByOneRun tree fresh (some 20) := by
  have settled := transform_twice_unchanged 0 ⟨0, 0⟩ mixedLinks (some 20)
  have checked : (Index.empty.collect (Node.number 0 (.branch ⟨0, 0⟩ .document mixedLinks)).1).toOption.any (fun index =>
      (Node.number 0 (.branch ⟨0, 0⟩ .document mixedLinks)).1.flat ∧
      Settling (Node.number 0 (.branch ⟨0, 0⟩ .document mixedLinks)).1 index) = true := by decide +kernel
  obtain ⟨index, collect, facts⟩ := exists_ok_of_any checked
  obtain ⟨flat, settling⟩ := of_decide_eq_true facts
  dsimp only at settled ⊢
  rw [collect] at settled ⊢
  exact ⟨flat, ⟨index, rfl, settling⟩, settled flat settling⟩

/-- A document with a link in whose text a definition stands. -/
def definitionInLink : Node :=
  .branch ⟨0, 0⟩ .document [.branch ⟨1, 0⟩ .paragraph [.branch ⟨2, 0⟩ (.link (.inline ⟨"u".toList, none⟩) none)
    [.leaf (.text "a".toList), .definition ⟨3, 0⟩ "x".toList ⟨"v".toList, none⟩]]]

/-- The text that a link loses with a definition in it counts for its identity, so that the next run finds another. -/
theorem definitionInLink_settled_late : definitionInLink.unnested ∧
    (∃ index, Index.empty.collect definitionInLink = .ok index ∧ Settling definitionInLink index) ∧
    (definitionInLink.transform 4 none >>= fun o => o.forest.document.render) =
      .ok "[a]\n\n[a[x]: v]: u\n".toList ∧
    ¬ FixedByOneRun definitionInLink 4 none := by
  have checked : (Index.empty.collect definitionInLink).toOption.any (fun index =>
      definitionInLink.unnested ∧ Settling definitionInLink index) = true := by decide +kernel
  have first : (definitionInLink.transform 4 none >>= fun o => o.forest.document.render) =
      .ok "[a]\n\n[a[x]: v]: u\n".toList := by decide +kernel
  have second : (definitionInLink.transform 4 none >>= fun o => o.forest.document.transform o.forest.fresh none >>=
      fun o' => o'.forest.document.render) = .ok "[a]\n\n[a]: u\n".toList := by decide +kernel
  obtain ⟨index, collect, facts⟩ := exists_ok_of_any checked
  obtain ⟨unnested, settling⟩ := of_decide_eq_true facts
  refine ⟨unnested, ⟨index, collect, settling⟩, first, ?_⟩
  rintro ⟨o, o', done, done', -, same, -⟩
  rw [done] at first second
  change o.forest.document.render = _ at first
  change (o.forest.document.transform o.forest.fresh none >>= fun o' => o'.forest.document.render) = _ at second
  rw [done'] at second
  change o'.forest.document.render = _ at second
  rw [same, first] at second
  revert second
  decide +kernel

end MarkdownLinks
