import MarkdownLinks.Proofs.Block.FrontMatter
import MarkdownLinks.Proofs.Link.Definitions
import MarkdownLinks.Proofs.Link.Rewrap

/-!
Front matter in a run. Nothing in it is read, so the links and definitions of a document are those behind it; no pass
takes it from the head of the document, and there it is written as it was read.
-/

namespace MarkdownLinks

namespace Document

/-- The nodes of the text behind front matter of a certain length, and the next free number. -/
def nodesBehind (next : Nat) (rest : Text) (length : Nat) (lineStarts : List Int) : List Node × Nat :=
  let (blocks, s) := Block.readBlocks (8 * (length + rest.length) + 63) ⟨⟨rest, length⟩, [.document], []⟩
  Node.numberAll next (Block.toNodes ⟨s.targets, lineStarts⟩ (blocks.map (·.block)))

theorem parseFrom_of_frontMatter {t matched rest : Text} {kind : FrontMatterKind}
    (found : Block.frontMatter? t.normalizeLineEndings = some (matched, kind))
    (split : t.normalizeLineEndings = matched ++ rest) (next : Nat) :
    let behind := nodesBehind (next + 1) rest.withoutNulls matched.length (t.normalizeLineEndings.lineStarts.map Int.ofNat)
    parseFrom next t =
      (.branch ⟨next, 0⟩ .document (.leaf (.frontMatter matched.withoutNulls kind) :: behind.1), behind.2) := by
  have read : Block.frontMatter? (sourceText t) = some (matched.withoutNulls, kind) := by
    rw [sourceText_eq, Block.frontMatter?_withoutNulls, found]
    rfl
  have whole : sourceText t = matched.withoutNulls ++ rest.withoutNulls := by
    rw [sourceText_eq, split, Text.withoutNulls, List.map_append]
    rfl
  have length : ∀ u : Text, u.withoutNulls.length = u.length := fun u => List.length_map _
  have behind : Block.behindFrontMatter (sourceText t) matched.withoutNulls =
      Block.readBlocks (8 * (matched.length + rest.withoutNulls.length) + 63)
        ⟨⟨rest.withoutNulls, matched.length⟩, [.document], []⟩ := by
    rw [Block.behindFrontMatter, whole, List.drop_left, List.length_append, length matched]
  rw [parseFrom, Block.readDocument_of_frontMatter read, behind]
  rfl

end Document

/-! ### Records -/

theorem walkAll_foldlM_add {parent parent' : Option Node} (alike : Parent.ofNode? parent = Parent.ofNode? parent')
    (ns : List Node) (index : Index) :
    (Node.walkAll parent ns).foldlM Index.add index = (Node.walkAll parent' ns).foldlM Index.add index := by
  have first : ∀ n index, Index.add index ⟨n, parent⟩ = Index.add index ⟨n, parent'⟩ := by
    intro n index
    simp only [Index.add, Visit.parentOf_eq, alike]
  induction ns generalizing index with
  | nil => rfl
  | cons n ns ih =>
    have same : (n.walkFrom parent).foldlM Index.add index = (n.walkFrom parent').foldlM Index.add index := by
      cases n <;> simp only [Node.walkFrom, List.foldlM_cons, first]
    rw [Node.walkAll, Node.walkAll, List.foldlM_append, List.foldlM_append, same]
    exact bind_congr fun next => ih next

/-- A leaf without code in it, such as front matter, leaves no record. -/
theorem collect_leaf_cons {l : Leaf} (plain : l.codeText? = none) (root : Tag) (ns : List Node) (index : Index) :
    index.collect (.branch root .document (.leaf l :: ns)) = index.collect (.branch root .document ns) := by
  have alone : (Node.leaf l).children = [] := by rw [Node.children, plain]; rfl
  rw [Index.collect, Index.collect, Node.walk, Node.walk, Node.walkFrom, Node.walkFrom, Node.walkAll, Node.walkFrom,
    alone, List.map_nil, List.singleton_append, List.foldlM_cons, List.foldlM_cons]
  have alike : Parent.ofNode? (some (.branch root .document (.leaf l :: ns))) =
      Parent.ofNode? (some (.branch root .document ns)) := rfl
  exact walkAll_foldlM_add alike ns index

/-! ### The head of the document -/

theorem collapseBlankLines_cons {n : Node} (shows : n.isBlankLine = false) (skip : Bool) (ns : List Node) :
    collapseBlankLines skip (n :: ns) = n :: collapseBlankLines false ns := by
  rw [collapseBlankLines, shows, if_neg Bool.false_ne_true]

/-- Cleaning leaves a leaf at the head of a list, unless it is a blank line. -/
theorem cleaned_leaf_cons {l : Leaf} (shows : (Node.leaf l).isBlankLine = false) (root : Option Tag)
    (records : List DefinitionRecord) (t : Tag) (ns : List Node) :
    ∃ ms, cleaned root records t (.leaf l :: ns) = .leaf l :: ms := by
  have kept : (Node.leaf l :: ns).filter (!Node.carries (records.map (·.tag)) ·) =
      .leaf l :: ns.filter (!Node.carries (records.map (·.tag)) ·) := List.filter_cons_of_pos rfl
  rw [cleaned, kept, tidied]
  split
  · exact ⟨_, collapseBlankLines_cons shows _ _⟩
  · exact ⟨_, rfl⟩

theorem dropLastBlankLines_cons {n : Node} (shows : n.isBlankLine = false) (ns : List Node) :
    ∃ ms, dropLastBlankLines (n :: ns) = n :: ms := by
  obtain ⟨blanks, same, blank⟩ := dropLastBlankLines_append (n :: ns)
  cases kept : dropLastBlankLines (n :: ns) with
  | nil =>
    rw [kept, List.nil_append] at same
    have hidden := blank n (same ▸ List.mem_cons_self)
    exact absurd (shows.symm.trans hidden) Bool.false_ne_true
  | cons m ms =>
    rw [kept, List.cons_append] at same
    exact ⟨ms, by rw [(List.cons.inj same).1]⟩

theorem attach_cons {n : Node} (shows : n.isBlankLine = false) (content definitions : List Node) (isLast : Bool) :
    ∃ ms, attach (n :: content) definitions isLast = n :: ms := by
  obtain ⟨ms, same⟩ := dropLastBlankLines_cons shows content
  have trimmed : ∀ b : Bool, ∃ ks, (if b then dropLastBlankLines (n :: content) else n :: content) = n :: ks := by
    rintro (_ | _)
    · exact ⟨content, rfl⟩
    · exact ⟨ms, same⟩
  obtain ⟨ks, head⟩ := trimmed (isLast || !definitions.isEmpty)
  simp only [attach, head]
  split
  · exact ⟨ks, rfl⟩
  · exact ⟨_, rfl⟩

/-- A node stays at the head of the document when definitions are attached to sections. -/
theorem attachAll_cons {n : Node} (shows : n.isBlankLine = false) (plain : n.isHeading = false) (ns : List Node)
    {defs : List (List Node)} (same : defs.length = (sections (n :: ns)).length) :
    ∃ ms, (attachAll (sections (n :: ns)) defs).flatten = n :: ms := by
  have single : Section [n].reverse := fun m inside => absurd inside List.not_mem_nil
  obtain ⟨more, rest, cut, -⟩ := sections_go_isCut [n] ns single
  have parts : sections (n :: ns) = (n :: more) :: rest := by
    rw [sections, sections.go, plain]
    exact cut
  rw [parts] at same ⊢
  cases defs with
  | nil => simp at same
  | cons nodes defs =>
    obtain ⟨ms, head⟩ := attach_cons shows more nodes rest.isEmpty
    rw [attachAll, head, List.flatten_cons]
    exact ⟨_, rfl⟩

section Run

variable {fresh : Nat} {index : Index} {reflowed : Node} {o : Outcome} {root root' : Tag} {l : Leaf} {ns ms : List Node}

/-- The counters of a run can be told from the index. -/
theorem Transformed.stats_eq {tree : Node} (t : Transformed tree fresh index reflowed o root ns)
    (document : DocumentTree tree fresh) (all : index.Collected tree.walk) :
    o.stats = ⟨index.links.countP (Rewriting.converts (Report.detect index)), (Report.detect index).conflictsFound,
      index.soleTargets.length⟩ := by
  have added : o.stats.added = index.soleTargets.length := by
    rw [t.added, ← (t.staged_perm document all).length_eq, List.length_map]
  rw [← t.converted, ← t.conflicts, ← added]

theorem DocumentTree.of_leaf_cons (document : DocumentTree (.branch root .document (.leaf l :: ns)) fresh) :
    DocumentTree (.branch root .document ns) fresh := by
  have tags : (Node.branch root .document ns).tags = (Node.branch root .document (.leaf l :: ns)).tags := by
    rw [Node.tags_branch, Node.tags_branch]
    rfl
  refine ⟨?_, fun tag inside => document.bound tag (tags ▸ inside), root, ns, rfl⟩
  rw [Node.Distinct, tags]
  exact document.distinct

/-- A leaf at the head of a document that is not a blank line is at the head of the transformed document. -/
theorem Transformed.head_stays {texts : Nat → Option Text} (shows : (Node.leaf l).isBlankLine = false)
    (document : DocumentTree (.branch root .document (.leaf l :: ns)) fresh)
    (wraps : Wraps (Report.detect index) index (.branch root .document (.leaf l :: ns)) texts)
    (t : Transformed (.branch root .document (.leaf l :: ns)) fresh index
      ((Node.branch root .document (.leaf l :: ns)).rewrap texts) o root' ms) :
    ∃ ks, o.forest.document = .branch root' .document (.leaf l :: ks) := by
  obtain ⟨ks, left⟩ : ∃ ks, ms = .leaf l :: ks := by
    have children := document.children_rewrap wraps
    have left := t.left
    rw [Node.rewrap_branch] at children left
    change Node.rewrapped texts root ((Node.leaf l :: ns).map (Node.rewrap texts)) =
      (Node.leaf l :: ns).map (Node.rewrap texts) at children
    rw [children, Node.retag_branch, Node.rebuild_branch] at left
    obtain ⟨-, -, rfl⟩ := Node.branch.inj left
    simp only [List.map_cons, Node.rewrap_leaf, Node.retag_leaf, Node.rebuild_leaf]
    exact cleaned_leaf_cons shows _ _ _ _
  subst left
  obtain ⟨ks, head⟩ := attachAll_cons shows rfl ks
    (nodes_length o fresh (Report.detect index) (.leaf l :: ks))
  exact ⟨ks, by rw [t.document, head]⟩

end Run

/-! ### What is written -/

/-- A text with a line feed at its end. -/
def Text.terminated (t : Text) : Text := if t.endsWith ['\n'] then t else t ++ ['\n']

theorem render_frontMatter_cons {root : Tag} {body text : Text} {kind : FrontMatterKind} {ns : List Node}
    (written : (Node.branch root .document (.leaf (.frontMatter body kind) :: ns)).render = .ok text) :
    body.terminated <+: text := by
  simp only [Node.render, Node.renderAt, Node.renderAll, Leaf.render] at written
  cases later : Node.renderAll [] [] ns with
  | error e => simp [later, bind, Except.bind] at written
  | ok s =>
    simp only [later, bind, Except.bind] at written
    obtain rfl := Except.ok.inj written
    exact ⟨s.text, by simp [Text.terminated, Container.delimiters]⟩

/-- Front matter passes through a run as it has been read. The records, the conflicts and the definitions are those of the
document behind it, of which nothing but the length of the front matter and its line starts is asked. -/
theorem transformText_frontMatter {t matched : Text} {kind : FrontMatterKind}
    (found : Block.frontMatter? t.normalizeLineEndings = some (matched, kind)) (width : Option Int) :
    ∃ rest, t.normalizeLineEndings = matched ++ rest ∧
      let (ns, fresh) := Document.nodesBehind 1 (Text.withoutNulls rest) matched.length
        (t.normalizeLineEndings.lineStarts.map Int.ofNat)
      let behind := Node.branch ⟨0, 0⟩ .document ns
      Document.parseFrom 0 t = (.branch ⟨0, 0⟩ .document (.leaf (.frontMatter matched.withoutNulls kind) :: ns), fresh) ∧
        Index.empty.collect (Document.parse t) = Index.empty.collect behind ∧
        ∀ markdown stats, transformText t width = .ok (markdown, stats) →
          matched.withoutNulls.terminated <+: markdown ∧
            ∃ o o', (Document.parse t).transform fresh width = .ok o ∧ behind.transform fresh width = .ok o' ∧
              o.forest.document.render = .ok markdown ∧ o.stats = stats ∧ o'.stats = stats ∧
              o.forest.document.definitions.Perm o'.forest.document.definitions := by
  obtain ⟨rest, split⟩ := Block.frontMatter?_prefix found
  refine ⟨rest, split.symm, ?_⟩
  have parsed := Document.parseFrom_of_frontMatter found split.symm 0
  simp only [Nat.zero_add] at parsed
  dsimp only at parsed ⊢
  generalize Document.nodesBehind 1 (Text.withoutNulls rest) matched.length
    (t.normalizeLineEndings.lineStarts.map Int.ofNat) = numbered at parsed ⊢
  obtain ⟨ns, fresh⟩ := numbered
  have document := documentTree_parseFrom 0 t
  rw [parsed] at document
  have records : Index.empty.collect (.branch ⟨0, 0⟩ .document (.leaf (.frontMatter matched.withoutNulls kind) :: ns)) =
      Index.empty.collect (.branch ⟨0, 0⟩ .document ns) := collect_leaf_cons rfl _ ns Index.empty
  rw [Document.parse, parsed]
  refine ⟨rfl, records, fun markdown stats done => ?_⟩
  rw [transformText, parsed] at done
  cases collect : Index.empty.collect (.branch ⟨0, 0⟩ .document ns) with
  | error e =>
    simp [transform_error width (records.trans collect), bind, Except.bind] at done
  | ok index =>
    have all := Index.collected (records.trans collect)
    have all' := Index.collected collect
    have document' := document.of_leaf_cons
    obtain ⟨f, told, o, root, ms, reflowing, transformed, t⟩ := transform_ok document width (records.trans collect)
    obtain ⟨_, _, o', _, _, -, transformed', t'⟩ := transform_ok document' width collect
    obtain ⟨texts, wraps, reflowed⟩ := reflowWithin_rewraps document (records.trans collect) reflowing
    rw [reflowed] at t
    simp only [transformed, bind, Except.bind] at done
    cases written : o.forest.document.render with
    | error e => simp [written] at done
    | ok text =>
      simp only [written] at done
      obtain ⟨rfl, rfl⟩ := Prod.mk.inj (Except.ok.inj done)
      refine ⟨?_, o, o', transformed, transformed', written, rfl, ?_, ?_⟩
      · obtain ⟨ks, head⟩ := t.head_stays rfl document wraps
        rw [head] at written
        exact render_frontMatter_cons written
      · exact (t'.stats_eq document' all').trans (t.stats_eq document all).symm
      · exact (t.definitions_perm document all).trans (t'.definitions_perm document' all').symm

def linkInFrontMatter : Text := "---\n[a](b)\n---\n[c](d)\n".toList

theorem linkInFrontMatter_stays :
    Block.frontMatter? linkInFrontMatter.normalizeLineEndings = some ("---\n[a](b)\n---\n".toList, .yaml) ∧
      ∃ markdown stats, transformText linkInFrontMatter none = .ok (markdown, stats) ∧ stats.converted = 1 ∧
        "---\n[a](b)\n---\n".toList <+: markdown := by
  have found : Block.frontMatter? linkInFrontMatter.normalizeLineEndings =
      some ("---\n[a](b)\n---\n".toList, .yaml) := by decide +kernel
  have checked : (transformText linkInFrontMatter none).toOption.any (fun r => r.2.converted = 1) = true := by
    decide +kernel
  obtain ⟨⟨markdown, stats⟩, done, converted⟩ := exists_ok_of_any checked
  obtain ⟨rest, -, -, -, passes⟩ := transformText_frontMatter found none
  exact ⟨found, markdown, stats, done, of_decide_eq_true converted, (passes markdown stats done).1⟩

def nullInFrontMatter : Text := ['-', '-', '-', '\n', '\x00', '\n', '-', '-', '-', '\n']

/-- The null character is replaced in front matter, too. -/
theorem nullInFrontMatter_replaced :
    Block.frontMatter? nullInFrontMatter.normalizeLineEndings = some (nullInFrontMatter, .yaml) ∧
      transformText nullInFrontMatter none = .ok ("---\n\uFFFD\n---\n".toList, .zero) ∧
      ¬nullInFrontMatter <+: "---\n\uFFFD\n---\n".toList := by
  decide +kernel

end MarkdownLinks
