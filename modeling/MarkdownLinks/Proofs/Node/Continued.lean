import MarkdownLinks.Proofs.Node.Writable
import MarkdownLinks.Proofs.Text.Replace

/-!
Text in the lines of its containers. However an inline node is nested, what continues its lines stands behind every line
feed that it writes and nowhere else.
-/

namespace MarkdownLinks

/-- A text with `rest` behind every line feed. -/
def Text.continued (t rest : Text) : Text := t.replaceChar '\n' ('\n' :: rest)

@[simp] theorem Text.continued_append (s t rest : Text) :
    Text.continued (s ++ t) rest = s.continued rest ++ t.continued rest := replaceChar_append s t '\n' _

@[simp] theorem Text.continued_nil (t : Text) : t.continued [] = t := replaceChar_self t '\n'

theorem Text.continued_of_not_mem {t : Text} (line : '\n' ∉ t) (rest : Text) : t.continued rest = t :=
  replaceChar_of_not_mem line _

/-! ### What is written as it is -/

def Leaf.isInline : Leaf → Bool
  | .text _ | .unescaped _ | .literal _ | .code _ | .html _ | .lineBreak _ => true
  | _ => false

def Container.isInline : Container → Bool
  | .emphasis | .strong | .image _ | .autoLink _ | .link _ _ => true
  | _ => false

/-- The text of a leaf that is written without a look at its lines. -/
def Leaf.verbatim : Leaf → Text
  | .unescaped t | .literal t | .code t | .html t => t
  | _ => []

def Target.verbatim (target : Target) : Text := target.dest ++ target.title.getD []

/-- What a branch says besides its children. -/
def Container.verbatim : Container → Text
  | .image target | .link (.inline target) _ => target.verbatim
  | .link (.reference label _) _ => label
  | .autoLink dest => dest
  | _ => []

namespace Node

def isInline : Node → Bool
  | leaf l => l.isInline
  | definition _ _ _ => false
  | branch _ container _ => container.isInline

def verbatim : Node → Text
  | leaf l => l.verbatim
  | definition _ label target => label ++ target.verbatim
  | branch _ container _ => container.verbatim

/-- Whether a node and all nodes below it are inline. -/
def Flowing (n : Node) : Prop := ∀ m ∈ n.subnodes, m.isInline

/-- Whether nothing that a node or one below it writes as it is goes over a line feed. -/
def Unbroken (n : Node) : Prop := ∀ m ∈ n.subnodes, '\n' ∉ m.verbatim

end Node

theorem Destination.write_unbroken {url : Text} (line : '\n' ∉ url) : '\n' ∉ write url := by
  unfold write
  split
  · exact line
  · split
    · have escaped : '\n' ∉ (url.replaceChar '<' ['\\', '<']).replaceChar '>' ['\\', '>'] :=
        Text.not_mem_replaceChar (Text.not_mem_replaceChar line (by decide)) (by decide)
      simpa using escaped
    · exact line

theorem Title.write_unbroken {title : Option Text} (line : '\n' ∉ title.getD []) : '\n' ∉ write title := by
  unfold write
  split
  · exact List.not_mem_nil
  · exact List.not_mem_nil
  · rename_i title _
    have escaped : '\n' ∉ (title.replaceChar '\\' ['\\', '\\']).replaceChar '"' ['\\', '"'] :=
      Text.not_mem_replaceChar (Text.not_mem_replaceChar line (by decide)) (by decide)
    simpa [quote] using escaped

theorem Target.render_unbroken {target : Target} (line : '\n' ∉ target.verbatim) : '\n' ∉ target.render := by
  rw [verbatim, List.mem_append, not_or] at line
  rw [render, List.mem_append, not_or]
  exact ⟨Destination.write_unbroken line.1, Title.write_unbroken line.2⟩

theorem Container.delimiters_unbroken {container : Container} (line : '\n' ∉ container.verbatim) :
    '\n' ∉ container.delimiters.1 ∧ '\n' ∉ container.delimiters.2 := by
  cases container with
  | image target => simpa [delimiters] using Target.render_unbroken line
  | link form position =>
    cases form with
    | inline target => simpa [delimiters] using Target.render_unbroken line
    | reference label written =>
      cases written with
      | full => simpa [delimiters, verbatim] using line
      | collapsed | shortcut => simp [delimiters]
  | _ => simp [delimiters]

theorem renderCodeSpan_unbroken {t written : Text} (line : '\n' ∉ t) (done : renderCodeSpan t = .ok written) :
    '\n' ∉ written := by
  unfold renderCodeSpan at done
  split at done
  · split at done
    · rw [← Except.ok.inj done]
      simpa using line
    · rw [← Except.ok.inj done]
      simpa using line
  · exact nomatch done

/-! ### Rendering -/

/-- What is rendered with nothing in front of lines, where further lines start with `rest`. -/
def Rendered.continued (rest first : Text) (r : Rendered) : Rendered := ⟨r.text.continued rest, first⟩

theorem Leaf.render_continued {l : Leaf} (inline : l.isInline) (line : '\n' ∉ l.verbatim) (rest first : Text) :
    l.render rest first = (l.render [] []).map (Rendered.continued rest first) := by
  cases l with
  | text t =>
    change Except.ok (Rendered.mk (t.continued rest) first) =
      .ok ⟨(t.continued []).continued rest, first⟩
    rw [Text.continued_nil]
  | literal t =>
    have plain : '\n' ∉ '\\' :: t := by simpa [verbatim] using line
    change Except.ok (Rendered.mk ('\\' :: t) first) = .ok ⟨Text.continued ('\\' :: t) rest, first⟩
    rw [Text.continued_of_not_mem plain]
  | unescaped t | html t =>
    change Except.ok (Rendered.mk t first) = .ok ⟨Text.continued t rest, first⟩
    rw [Text.continued_of_not_mem (t := t) line]
  | code t =>
    rw [Leaf.render, Leaf.render]
    cases done : renderCodeSpan t with
    | error e => rfl
    | ok written =>
      change Except.ok (Rendered.mk written first) = .ok ⟨written.continued rest, first⟩
      rw [Text.continued_of_not_mem (renderCodeSpan_unbroken line done)]
  | lineBreak soft => cases soft <;> simp [Leaf.render, Except.map, Rendered.continued, Text.continued, Text.replaceChar]
  | _ => exact absurd inline Bool.false_ne_true

namespace Node

theorem renderAll_continued_of {ns : List Node}
    (each : ∀ n ∈ ns, ∀ rest first, renderAt rest first n = (renderAt [] [] n).map (Rendered.continued rest first))
    (rest first : Text) : renderAll rest first ns = (renderAll [] [] ns).map (Rendered.continued rest first) := by
  induction ns generalizing rest first with
  | nil => rfl
  | cons n ns ih =>
    have later := ih fun m inside => each m (List.mem_cons_of_mem _ inside)
    rw [renderAll, renderAll, each n List.mem_cons_self]
    cases written : renderAt [] [] n with
    | error e => rfl
    | ok r =>
      change (renderAll rest first ns >>= fun s => .ok ⟨r.text.continued rest ++ s.text, s.first⟩) =
        (renderAll [] r.first ns >>= fun s => .ok ⟨r.text ++ s.text, s.first⟩).map (Rendered.continued rest first)
      rw [later rest first, later [] r.first]
      cases renderAll [] [] ns with
      | error e => rfl
      | ok s => simp [Except.map, bind, Except.bind, Rendered.continued]

theorem renderAt_continued {n : Node} (flowing : n.Flowing) (unbroken : n.Unbroken) (rest first : Text) :
    renderAt rest first n = (renderAt [] [] n).map (Rendered.continued rest first) := by
  induction n generalizing rest first with
  | leaf l => exact Leaf.render_continued (flowing _ (mem_subnodes_self _)) (unbroken _ (mem_subnodes_self _)) rest first
  | definition tag label target => exact absurd (flowing _ (mem_subnodes_self _)) Bool.false_ne_true
  | branch tag container ns ih =>
    have all := renderAll_continued_of fun n inside =>
      ih n inside (fun m member => flowing m (mem_subnodes_of_child inside member))
        fun m member => unbroken m (mem_subnodes_of_child inside member)
    have inline : container.isInline := flowing _ (mem_subnodes_self _)
    have line : '\n' ∉ container.verbatim := unbroken _ (mem_subnodes_self _)
    have delimiters := container.delimiters_unbroken line
    have around : (renderAll rest first ns >>= fun r =>
        Except.ok (Rendered.mk (container.delimiters.1 ++ r.text ++ container.delimiters.2) r.first)) =
        (renderAll [] [] ns >>= fun r =>
          Except.ok (Rendered.mk (container.delimiters.1 ++ r.text ++ container.delimiters.2) r.first)).map
            (Rendered.continued rest first) := by
      rw [all rest first]
      cases renderAll [] [] ns with
      | error e => rfl
      | ok r =>
        simp [Except.map, bind, Except.bind, Rendered.continued, Text.continued_of_not_mem delimiters.1,
          Text.continued_of_not_mem delimiters.2]
    cases container with
    | autoLink dest =>
      have plain : '\n' ∉ '<' :: (dest ++ ['>']) := by simpa [Container.verbatim] using line
      change Except.ok (Rendered.mk ('<' :: (dest ++ ['>'])) first) =
        .ok ⟨Text.continued ('<' :: (dest ++ ['>'])) rest, first⟩
      rw [Text.continued_of_not_mem plain]
    | emphasis | strong | image | link => exact around
    | _ => exact absurd inline Bool.false_ne_true

/-- An empty code span is all that can keep an inline node from being written. -/
theorem writable_of_flowing {n : Node} (flowing : n.Flowing) (spans : .leaf (.code []) ∉ n.subnodes) : n.writable := by
  induction n with
  | leaf l =>
    have inline : l.isInline := flowing _ (mem_subnodes_self _)
    cases l with
    | code t =>
      cases t with
      | nil => exact absurd (mem_subnodes_self _) spans
      | cons c t => rfl
    | codeBlock t => exact absurd inline Bool.false_ne_true
    | _ => rfl
  | definition tag label target => rfl
  | branch tag container ns ih =>
    rw [writable_branch, Bool.or_eq_true, List.all_eq_true]
    refine Or.inr fun n inside => ih n inside (fun m member => flowing m (mem_subnodes_of_child inside member)) ?_
    exact fun member => spans (mem_subnodes_of_child inside member)

/-- Inline nodes whose verbatim parts stay on one line follow the containers around them: wherever they are written, it is
what they are outside of all containers, with the continuation of lines behind every line feed. They hand the start of the
next line on, and they can be written if no code span is empty. -/
theorem renderAt_inline {n : Node} (flowing : n.Flowing) (unbroken : n.Unbroken) (rest first : Text) :
    renderAt rest first n = n.render.map (fun text => ⟨text.replaceChar '\n' ('\n' :: rest), first⟩) ∧
      (.leaf (.code []) ∉ n.subnodes → n.render.isOk) := by
  refine ⟨?_, fun spans => ?_⟩
  · rw [renderAt_continued flowing unbroken, render]
    cases renderAt [] [] n <;> rfl
  · rw [render_isOk]
    exact writable_of_flowing flowing spans

/-- A reference in an emphasis, with a soft and a hard break, an escaped bracket and an image. -/
def brokenLines : Node :=
  .fresh .emphasis [.fresh (.link (.reference "a b".toList .full) none)
    [.leaf (.text "a".toList), .leaf (.lineBreak true), .leaf (.literal "]".toList), .leaf (.lineBreak false),
      .leaf (.text "b\nc".toList)], .fresh (.image ⟨"u v".toList, some "t".toList⟩) [.leaf (.lineBreak true),
      .leaf (.code "d".toList)]]

theorem brokenLines_continued : brokenLines.Flowing ∧ brokenLines.Unbroken ∧
    renderAt "> ".toList "- ".toList brokenLines =
        brokenLines.render.map (fun text => ⟨text.replaceChar '\n' ('\n' :: "> ".toList), "- ".toList⟩) ∧
      brokenLines.render.isOk := by
  have flowing : brokenLines.Flowing := by
    unfold Flowing
    decide +kernel
  have unbroken : brokenLines.Unbroken := by
    unfold Unbroken
    decide +kernel
  have spans : .leaf (.code []) ∉ brokenLines.subnodes := by
    simp [brokenLines, fresh, subnodes, walk, walkFrom, walkAll, children]
  obtain ⟨written, done⟩ := renderAt_inline flowing unbroken "> ".toList "- ".toList
  exact ⟨flowing, unbroken, written, done spans⟩

/-! ### Blocks of code -/

/-- What a block of code breaks into lines is its only child as it is rendered, so that it can begin the lines itself. -/
theorem renderAll_code {l : Leaf} {t : Text} (code : l.codeText? = some t) (rest first : Text) :
    renderAll rest first (leaf l).children = .ok ⟨t, first⟩ := by
  rw [children, code]
  change Except.ok (Rendered.mk (t ++ []) first) = _
  rw [List.append_nil]

def fencedLines : Node := .leaf (.fencedCode [] [] "a\nb\n".toList)

/-- The lines of an unescaped text are left to the block around it. With what continues lines behind its line feeds it would
have the mark of a quote twice. -/
theorem fencedLines_not_continued :
    let body : Node := .leaf (.unescaped "a\nb\n".toList)
    fencedLines.children = [body] ∧ body.Flowing ∧ body.subnodes = [body] ∧
      renderAt "> ".toList "> ".toList body ≠
        body.render.map (fun text => ⟨text.replaceChar '\n' ('\n' :: "> ".toList), "> ".toList⟩) ∧
      (fresh .quote [fencedLines]).render = .ok "> \x60\x60\x60\n> a\n> b\n> \x60\x60\x60\n".toList := by
  refine ⟨rfl, ?_, rfl, by decide, by decide +kernel⟩
  unfold Flowing
  decide +kernel

end Node
end MarkdownLinks
