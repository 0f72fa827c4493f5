import MarkdownLinks.Document
import MarkdownLinks.Proofs.Block.Line
import MarkdownLinks.Proofs.LineEndings

/-!
Documents that are read as they were written: paragraphs of one line each, with links that are references by their own
text, and below all of them definitions, among them one for every link.
-/

namespace MarkdownLinks

/-- Paragraphs of one line each, and the labels and destinations of the definitions below them. -/
structure Prose where
  paragraphs : List Line
  definitions : List (Text × Text)
  plain : ∀ l ∈ paragraphs, Block.isParagraphLine l
  bare : ∀ d ∈ definitions, Block.isBareDefinition d.1 d.2
  defined : ∀ l ∈ paragraphs, ∀ name ∈ l.names, ∃ d ∈ definitions, identifierOf name = identifierOf d.1

namespace Prose

def writeParagraph (l : Line) : Text := l.write ++ ['\n', '\n']

def writeDefinition (d : Text × Text) : Text := '[' :: (d.1 ++ ']' :: ':' :: ' ' :: (d.2 ++ ['\n']))

def write (p : Prose) : Text := p.paragraphs.flatMap writeParagraph ++ p.definitions.flatMap writeDefinition

def paragraphNodes (l : Line) : List Node := [.fresh .paragraph l.nodes, .leaf .blankLine]

def definitionNode (d : Text × Text) : Node := .definition ⟨0, 0⟩ d.1 ⟨d.2, none⟩

def tree (p : Prose) : Node :=
  .fresh .document (p.paragraphs.flatMap paragraphNodes ++ p.definitions.map definitionNode)

end Prose

namespace Block

open Prose

variable {offset fuel : Nat} {targets : List (Text × Target)}

/-! ### Reading -/

theorem readBlocks_cons {t : Text} {b : Block} {s : Source} (filled : t ≠ [])
    (read : readBlock fuel (atLine t offset targets) = some (b, s)) :
    readBlocks (fuel + 1) (atLine t offset targets) =
      (⟨b, ⟨t, offset⟩⟩ :: (readBlocks fuel s).1, (readBlocks fuel s).2) := by
  have more : (atLine t offset targets).atEnd = false := List.isEmpty_eq_false_iff.mpr filled
  rw [readBlocks, more, if_neg Bool.false_ne_true, read]

theorem mem_define {s : Source} {label : Text} {target : Target} {identifier : Text} :
    (∃ p ∈ define s label target, identifier = p.1) ↔
      identifier = identifierOf label ∨ ∃ p ∈ s.targets, identifier = p.1 := by
  simp only [define]
  split
  · rename_i known
    obtain ⟨p, inside, same⟩ := List.any_eq_true.mp known
    have here : identifierOf label = p.1 := (of_decide_eq_true same).symm
    exact ⟨Or.inr, fun either => either.elim (fun own => ⟨p, inside, own.trans here⟩) id⟩
  · simp only [List.mem_append, List.mem_singleton, or_and_right, exists_or, exists_eq_left]
    exact or_comm

theorem head?_definitions (ds : List (Text × Text)) : ∀ c ∈ (ds.flatMap writeDefinition).head?, c = '[' := by
  cases ds with
  | nil => exact fun c first => (Option.not_mem_none c first).elim
  | cons d ds => exact fun c first => (Option.some.inj first).symm

theorem readBlock_definition {d : Text × Text} (bare : isBareDefinition d.1 d.2) {tail : Text}
    (next : ∀ c ∈ tail.head?, c = '[') (fuel offset : Nat) (targets : List (Text × Target)) :
    readBlock (fuel + 1) (atLine (writeDefinition d ++ tail) offset targets) =
      some (definition d.1 ⟨d.2, none⟩, atLine tail (offset + (writeDefinition d).length)
        (define (atLine (writeDefinition d ++ tail) offset targets) d.1 ⟨d.2, none⟩)) := by
  have text : writeDefinition d ++ tail = '[' :: (d.1 ++ ']' :: ':' :: ' ' :: (d.2 ++ '\n' :: tail)) := by
    simp [writeDefinition]
  have length : (writeDefinition d).length = d.1.length + d.2.length + 5 := by
    simp only [writeDefinition, List.length_cons, List.length_append, List.length_nil]
    omega
  have behind : (writeDefinition d ++ tail).drop (d.1.length + d.2.length + 5) = tail := by rw [← length, List.drop_left]
  rw [text] at behind ⊢
  rw [readBlock_initial (by decide), definition?_written bare next, length]
  simp only [Cursor.advance, behind]

/-- Definitions are read one after the other, and the targets that are known then are those known before and theirs. -/
theorem readBlocks_definitions {ds : List (Text × Text)} (bare : ∀ d ∈ ds, isBareDefinition d.1 d.2)
    (enough : ds.length < fuel) (offset : Nat) (targets : List (Text × Target)) :
    (readBlocks fuel (atLine (ds.flatMap writeDefinition) offset targets)).1.map (·.block) =
        ds.map (fun d => definition d.1 ⟨d.2, none⟩) ∧
      ∀ identifier, ((∃ d ∈ ds, identifier = identifierOf d.1) ∨ ∃ p ∈ targets, identifier = p.1) →
        ∃ p ∈ (readBlocks fuel (atLine (ds.flatMap writeDefinition) offset targets)).2.targets, identifier = p.1 := by
  induction ds generalizing fuel offset targets with
  | nil =>
    obtain ⟨fuel, rfl⟩ := Nat.exists_eq_succ_of_ne_zero (Nat.ne_of_gt enough)
    refine ⟨rfl, fun identifier known => known.resolve_left ?_⟩
    simp
  | cons d ds ih =>
    obtain ⟨own, bare⟩ := List.forall_mem_cons.mp bare
    obtain ⟨fuel, rfl⟩ : ∃ n, fuel = n + 2 := ⟨fuel - 2, by rw [List.length_cons] at enough; omega⟩
    have filled : writeDefinition d ++ ds.flatMap writeDefinition ≠ [] := List.cons_ne_nil _ _
    have read := readBlocks_cons filled (readBlock_definition own (head?_definitions ds) fuel offset targets)
    obtain ⟨blocks, known⟩ := ih bare (Nat.lt_of_succ_lt_succ enough) (offset + (writeDefinition d).length)
      (define (atLine (writeDefinition d ++ ds.flatMap writeDefinition) offset targets) d.1 ⟨d.2, none⟩)
    rw [List.flatMap_cons, read, List.map_cons, List.map_cons, blocks]
    refine ⟨rfl, fun identifier either => known identifier ?_⟩
    rw [mem_define]
    rcases either with ⟨e, here, same⟩ | old
    · rcases List.mem_cons.mp here with rfl | later
      · exact Or.inr (Or.inl same)
      · exact Or.inl ⟨e, later, same⟩
    · exact Or.inr (Or.inr old)

theorem readBlock_paragraph {l : Line} (paragraph : isParagraphLine l) (rest : Text) :
    readBlock (fuel + 1) (atLine (writeParagraph l ++ rest) offset targets) =
      some (Block.paragraph (locate l.write offset), atLine ('\n' :: rest) (offset + l.write.length + 1) targets) := by
  obtain ⟨c, u, starts, initial, noDefinition⟩ := definition?_paragraphLine paragraph ('\n' :: rest)
  have text : writeParagraph l ++ rest = l.write ++ '\n' :: '\n' :: rest := by simp [writeParagraph]
  have read := readParagraph_line paragraph rest offset targets
  rw [text]
  rw [starts, List.cons_append] at noDefinition read ⊢
  rw [readBlock_initial initial, noDefinition, read, List.length_cons]

theorem head?_paragraphs {ls : List Line} (lines : ∀ l ∈ ls, isParagraphLine l) {tail : Text}
    (next : ∀ c ∈ tail.head?, c = '[') : ∀ c ∈ (ls.flatMap writeParagraph ++ tail).head?, isInitial c := by
  cases ls with
  | nil => exact fun c first => next c first ▸ by decide
  | cons l ls =>
    obtain ⟨c, u, starts, initial, -⟩ := definition?_paragraphLine (lines l List.mem_cons_self) []
    intro d first
    rw [List.flatMap_cons, writeParagraph, starts] at first
    exact Option.some.inj first ▸ initial

theorem toNode_paragraph {l : Line} (paragraph : isParagraphLine l) {context : Inline.Context}
    (known : ∀ name ∈ l.names, (context.targets.lookup (identifierOf name)).isSome) (offset : Nat) :
    (toNode context (Block.paragraph (locate l.write offset))).bare = .fresh .paragraph l.nodes := by
  simp only [isParagraphLine, Bool.and_eq_true] at paragraph
  rw [toNode, Node.bare_branch, Inline.parse_locate paragraph.1.1 known]
  rfl

/-- The nodes of what has been read, as they are written. -/
def bareNodes (context : Inline.Context) (blocks : List Placed) : List Node :=
  (toNodes context (blocks.map (·.block))).map Node.bare

/-- Each paragraph and the blank line behind it take two steps; reading goes on with what stands below all of them. -/
theorem readBlocks_paragraphs {ls : List Line} (lines : ∀ l ∈ ls, isParagraphLine l) {tail : Text}
    (next : ∀ c ∈ tail.head?, c = '[') (fuel offset : Nat) (targets : List (Text × Target)) : ∃ offset',
      let whole := readBlocks (fuel + 1 + 2 * ls.length) (atLine (ls.flatMap writeParagraph ++ tail) offset targets)
      let below := readBlocks (fuel + 1) (atLine tail offset' targets)
      whole.2 = below.2 ∧ ∀ context : Inline.Context,
        (∀ l ∈ ls, ∀ name ∈ l.names, (context.targets.lookup (identifierOf name)).isSome) →
          bareNodes context whole.1 = ls.flatMap paragraphNodes ++ bareNodes context below.1 := by
  induction ls generalizing offset with
  | nil => exact ⟨offset, rfl, fun _ _ => rfl⟩
  | cons l ls ih =>
    obtain ⟨own, lines'⟩ := List.forall_mem_cons.mp lines
    obtain ⟨offset', rest, nodes⟩ := ih lines' (offset + l.write.length + 2)
    have text : (l :: ls).flatMap writeParagraph ++ tail = writeParagraph l ++ (ls.flatMap writeParagraph ++ tail) := by
      rw [List.flatMap_cons, List.append_assoc]
    have filled : writeParagraph l ++ (ls.flatMap writeParagraph ++ tail) ≠ [] := by simp [writeParagraph]
    have steps : fuel + 1 + 2 * (l :: ls).length = fuel + 1 + 2 * ls.length + 1 + 1 := by
      rw [List.length_cons]
      omega
    have blank : readBlock (fuel + 1 + 2 * ls.length) (atLine ('\n' :: (ls.flatMap writeParagraph ++ tail))
        (offset + l.write.length + 1) targets) =
          some (leaf .blankLine, atLine (ls.flatMap writeParagraph ++ tail) (offset + l.write.length + 2) targets) := by
      rw [Nat.add_right_comm, readBlock_blank (Nat.succ_pos _), skipBlanks_single (head?_paragraphs lines' next)]
    refine ⟨offset', ?_⟩
    dsimp only at rest nodes ⊢
    rw [text, steps, readBlocks_cons filled (readBlock_paragraph own _), readBlocks_cons (List.cons_ne_nil _ _) blank]
    refine ⟨rest, fun context known => ?_⟩
    obtain ⟨here, known⟩ := List.forall_mem_cons.mp known
    rw [List.flatMap_cons, List.append_assoc, ← nodes context known, paragraphNodes, ← toNode_paragraph own here offset]
    rfl

theorem bareNodes_definitions {ds : List (Text × Text)} {blocks : List Placed}
    (read : blocks.map (·.block) = ds.map fun d => definition d.1 ⟨d.2, none⟩) (context : Inline.Context) :
    bareNodes context blocks = ds.map definitionNode := by
  rw [bareNodes, read]
  clear read
  induction ds with
  | nil => rfl
  | cons d ds ih => exact congrArg (definitionNode d :: ·) ih

end Block

/-! ### Writing -/

namespace Node

/-- Nodes and what they are written as, one after the other, where no line starts with anything. -/
inductive WrittenAs : List Node → Text → Prop
  | nil : WrittenAs [] []
  | cons {n : Node} {ns : List Node} {t u : Text} (first : renderAt [] [] n = .ok ⟨t, []⟩) (rest : WrittenAs ns u) :
    WrittenAs (n :: ns) (t ++ u)

namespace WrittenAs

variable {n : Node} {ns ms : List Node} {t u : Text}

theorem renderAll (written : WrittenAs ns t) : renderAll [] [] ns = .ok ⟨t, []⟩ := by
  induction written with
  | nil => rfl
  | cons first _ ih =>
    rw [Node.renderAll, first]
    simp only [bind, Except.bind, ih]

theorem append (written : WrittenAs ns t) (rest : WrittenAs ms u) : WrittenAs (ns ++ ms) (t ++ u) := by
  induction written with
  | nil => exact rest
  | cons first _ ih =>
    rw [List.append_assoc]
    exact ih.cons first

theorem flatMap {α : Type} {f : α → List Node} {g : α → Text} {as : List α} (each : ∀ a ∈ as, WrittenAs (f a) (g a)) :
    WrittenAs (as.flatMap f) (as.flatMap g) := by
  induction as with
  | nil => exact .nil
  | cons a as ih =>
    obtain ⟨here, each⟩ := List.forall_mem_cons.mp each
    exact here.append (ih each)

theorem single (written : renderAt [] [] n = .ok ⟨t, []⟩) : WrittenAs [n] t := by
  have one := WrittenAs.nil.cons written
  rwa [List.append_nil] at one

theorem text (t : Text) : WrittenAs [.leaf (.text t)] t := by
  refine single ?_
  rw [renderAt, Leaf.render, Text.replaceChar_self]

end WrittenAs
end Node

namespace Line

theorem wordNodes_writtenAs (t : Text) : Node.WrittenAs (wordNodes t) t := by
  cases t with
  | nil => exact .nil
  | cons c t => exact .text (c :: t)

theorem nodes_writtenAs (l : Line) : Node.WrittenAs l.nodes l.write := by
  induction l with
  | words t => exact wordNodes_writtenAs t
  | link before name rest ih =>
    have link : Node.renderAt [] [] (.fresh (.link (.reference name .shortcut) none) [.leaf (.text name)]) =
        .ok ⟨['['] ++ name ++ [']'], []⟩ := by
      have around : Node.renderAt [] [] (.fresh (.link (.reference name .shortcut) none) [.leaf (.text name)]) =
          Node.renderAll [] [] [.leaf (.text name)] >>= fun r => .ok ⟨['['] ++ r.text ++ [']'], r.first⟩ := rfl
      rw [around, (Node.WrittenAs.text name).renderAll]
      rfl
    have all := (wordNodes_writtenAs before).append (ih.cons link)
    rwa [List.append_assoc, List.append_assoc] at all

end Line

/-! ### Reading what was written -/

/-- Whether the text that a tree is written as is read as that tree again. -/
def ReadsBack (n : Node) : Prop := ∀ out, n.render = .ok out → (Document.parse out).bare = n.bare

namespace Prose

/-- A character that occurs in such documents. -/
def isWritten (c : Char) : Bool := c = '\n' || Inline.isCalm c || Block.isBareChar c

variable (p : Prose)

theorem length_le : 2 * p.paragraphs.length + p.definitions.length ≤ p.write.length := by
  have paragraphs : 2 * p.paragraphs.length ≤ (p.paragraphs.flatMap writeParagraph).length := by
    generalize p.paragraphs = ls
    induction ls with
    | nil => exact Nat.le_refl _
    | cons l ls ih =>
      simp only [List.flatMap_cons, writeParagraph, List.length_append, List.length_cons] at ih ⊢
      omega
  have definitions : p.definitions.length ≤ (p.definitions.flatMap writeDefinition).length := by
    generalize p.definitions = ds
    induction ds with
    | nil => exact Nat.le_refl _
    | cons d ds ih =>
      simp only [List.flatMap_cons, writeDefinition, List.length_append, List.length_cons] at ih ⊢
      omega
  rw [write, List.length_append]
  omega

theorem readDocument_write (lineStarts : List Int) :
    (Block.toNodes ⟨(Block.readDocument p.write).2, lineStarts⟩ (Block.readDocument p.write).1).map Node.bare =
      p.paragraphs.flatMap paragraphNodes ++ p.definitions.map definitionNode := by
  have length := p.length_le
  obtain ⟨fuel, enough, steps⟩ : ∃ fuel, p.definitions.length < fuel + 1 ∧
      8 * p.write.length + 63 + 1 = fuel + 1 + 2 * p.paragraphs.length :=
    ⟨8 * p.write.length + 63 - 2 * p.paragraphs.length, by omega, by omega⟩
  obtain ⟨offset, rest, nodes⟩ := Block.readBlocks_paragraphs p.plain (Block.head?_definitions p.definitions) fuel 0 []
  obtain ⟨blocks, known⟩ := Block.readBlocks_definitions p.bare enough offset []
  have leads : ∀ l ∈ p.paragraphs, ∀ name ∈ l.names,
      ((Block.readDocument p.write).2.lookup (identifierOf name)).isSome := by
    intro l inside name here
    obtain ⟨q, among, same⟩ := known (identifierOf name) (Or.inl (p.defined l inside name here))
    refine List.lookup_isSome_iff.mpr ⟨q, ?_, beq_iff_eq.mpr same⟩
    rw [← rest, ← steps] at among
    rw [Block.readDocument_eq]
    exact among
  have all := nodes ⟨(Block.readDocument p.write).2, lineStarts⟩ leads
  rw [← steps, Block.bareNodes_definitions blocks] at all
  rw [← all, Block.readDocument_eq]
  rfl

theorem isWritten_of_mem : ∀ c ∈ p.write, isWritten c := by
  have ofCalm {c : Char} (calm : Inline.isCalm c) : isWritten c := by rw [isWritten, calm, Bool.or_true]; rfl
  have ofBare {c : Char} (bare : Block.isBareChar c) : isWritten c := by rw [isWritten, bare, Bool.or_true]
  intro c inside
  rcases List.mem_append.mp inside with above | below
  · obtain ⟨l, here, inside⟩ := List.mem_flatMap.mp above
    have plain := p.plain l here
    simp only [Block.isParagraphLine, Bool.and_eq_true] at plain
    rcases List.mem_append.mp inside with text | feed
    · exact ofCalm (Inline.calm_of_mem_write plain.1.1 c text)
    · obtain rfl : c = '\n' := by simpa using feed
      rfl
  · obtain ⟨d, here, inside⟩ := List.mem_flatMap.mp below
    have written := p.bare d here
    simp only [Block.isBareDefinition, Bool.and_eq_true, List.all_eq_true] at written
    simp only [writeDefinition, List.mem_cons, List.mem_append, List.not_mem_nil, or_false] at inside
    rcases inside with rfl | label | rfl | rfl | rfl | dest | rfl
    · rfl
    · exact ofCalm (Inline.isCalm_of_isQuiet (quiet_of_isName written.1.1 c label))
    · rfl
    · rfl
    · rfl
    · exact ofBare (written.2 c dest)
    · rfl

theorem sourceText_write : Document.sourceText p.write = p.write := by
  have plain := p.isWritten_of_mem
  have returns : '\r' ∉ p.write := fun inside => ne_of_class (plain _ inside) (by decide) rfl
  have feeds : '\x0c' ∉ p.write := fun inside => ne_of_class (plain _ inside) (by decide) rfl
  rw [Document.sourceText, Text.normalizeLineEndings_of_uniform returns feeds]
  refine (List.map_congr_left fun c inside => ?_).trans (List.map_id _)
  exact if_neg (ne_of_class (plain c inside) (by decide))

theorem parse_write : (Document.parse p.write).bare = p.tree := by
  rw [Document.parse, Document.parseFrom, sourceText_write, Node.number_bare, Node.bare_branch, readDocument_write]
  rfl

theorem render_tree : p.tree.render = .ok p.write := by
  have paragraph (l : Line) : Node.WrittenAs (paragraphNodes l) (writeParagraph l) := by
    have text : Node.renderAt [] [] (.fresh .paragraph l.nodes) = .ok ⟨[] ++ l.write ++ ['\n'], []⟩ := by
      rw [Node.renderAt, l.nodes_writtenAs.renderAll]
      rfl
    have blank : Node.renderAt [] [] (.leaf .blankLine) = .ok ⟨['\n'], []⟩ := rfl
    have both := (Node.WrittenAs.single blank).cons text
    rwa [List.nil_append, List.append_assoc] at both
  have definition : ∀ d ∈ p.definitions, Node.WrittenAs [definitionNode d] (writeDefinition d) := by
    intro d here
    refine .single ?_
    rw [definitionNode, Node.renderAt, renderDefinition, Target.render, Block.write_of_bare (p.bare d here)]
    simp [writeDefinition, Title.write]
  have all := (Node.WrittenAs.flatMap fun l (_ : l ∈ p.paragraphs) => paragraph l).append (Node.WrittenAs.flatMap definition)
  rw [← List.map_eq_flatMap] at all
  have around : Node.renderAt [] [] p.tree = Node.renderAll [] [] (p.paragraphs.flatMap paragraphNodes ++
      p.definitions.map definitionNode) >>= fun r => .ok ⟨[] ++ r.text ++ [], r.first⟩ := rfl
  rw [Node.render, around, all.renderAll]
  exact congrArg Except.ok (List.append_nil _)

theorem tree_bare : p.tree.bare = p.tree := by rw [← p.parse_write, Node.bare_bare]

variable {n : Node} (same : n.bare = p.tree)

include same

theorem render_of_bare : n.render = .ok p.write :=
  (Node.render_congr (same.trans p.tree_bare.symm)).trans p.render_tree

/-- Such a document is read back as what it was, whatever its tags and positions are. -/
theorem readsBack : ReadsBack n := by
  intro out text
  obtain rfl := Except.ok.inj ((p.render_of_bare same).symm.trans text)
  rw [p.parse_write, same]

end Prose
end MarkdownLinks
