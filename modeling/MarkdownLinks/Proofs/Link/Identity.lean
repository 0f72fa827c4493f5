import MarkdownLinks.Proofs.Link.Collector
import MarkdownLinks.Proofs.Link.Rewrap
import MarkdownLinks.Proofs.Node.Continued
import MarkdownLinks.Proofs.Text.Normal

/-!
Identities and the words of link texts. An identity is the normal form of a text as Markdown, so it stands for the words of
that text: links get one id exactly if their texts have the same words, and breaking a text into lines anew does not change
what it is identified by.
-/

namespace MarkdownLinks

/-! ### Link texts laid out anew -/

namespace Node

/-- The same nodes, but in place of raw texts and soft breaks next to each other there may be others with the same text up to
whitespace. So there may below inline nodes. -/
inductive Relaid : List Node → List Node → Prop
  | nil : Relaid [] []
  | same (n : Node) {ns ms : List Node} (rest : Relaid ns ms) : Relaid (n :: ns) (n :: ms)
  | plain {ps qs ns ms : List Node} {t u : Text} (old : Plain ps t) (new : Plain qs u) (relaid : Text.Relaid t u)
      (rest : Relaid ns ms) : Relaid (ps ++ ns) (qs ++ ms)
  | branch (tag : Tag) {container : Container} (inline : container.isInline) {ks ls ns ms : List Node}
      (below : Relaid ks ls) (rest : Relaid ns ms) : Relaid (branch tag container ks :: ns) (branch tag container ls :: ms)

end Node

namespace Rendered

/-- Two attempts to render come to the same, up to the whitespace between words. -/
inductive Relaid : Except RenderError Rendered → Except RenderError Rendered → Prop
  | ok {t u : Text} (relaid : Text.Relaid t u) (first : Text) : Relaid (.ok ⟨t, first⟩) (.ok ⟨u, first⟩)
  | error (e : RenderError) : Relaid (.error e) (.error e)

namespace Relaid

theorem refl (x : Except RenderError Rendered) : Relaid x x := by
  cases x with
  | ok r => exact .ok (.refl r.text) r.first
  | error e => exact .error e

variable {x y : Except RenderError Rendered}

theorem behind (relaid : Relaid x y) {s s' : Text} (before : Text.Relaid s s') :
    Relaid (x.map fun r => ⟨s ++ r.text, r.first⟩) (y.map fun r => ⟨s' ++ r.text, r.first⟩) := by
  cases relaid with
  | ok relaid first => exact .ok (before.append relaid) first
  | error e => exact .error e

theorem between (relaid : Relaid x y) (before after : Text) :
    Relaid (x.map fun r => ⟨before ++ r.text ++ after, r.first⟩)
      (y.map fun r => ⟨before ++ r.text ++ after, r.first⟩) := by
  cases relaid with
  | ok relaid first => exact .ok (((Text.Relaid.refl before).append relaid).append (.refl after)) first
  | error e => exact .error e

theorem append (relaid : Relaid x y) {f g : Text → Except RenderError Rendered}
    (each : ∀ first, Relaid (f first) (g first)) :
    Relaid (x >>= fun r => f r.first >>= fun s => .ok ⟨r.text ++ s.text, s.first⟩)
      (y >>= fun r => g r.first >>= fun s => .ok ⟨r.text ++ s.text, s.first⟩) := by
  cases relaid with
  | error e => exact .error e
  | ok relaid first =>
    have second := each first
    simp only [bind, Except.bind]
    generalize f first = x at second ⊢
    generalize g first = y at second ⊢
    cases second with
    | error e => exact .error e
    | ok later first => exact .ok (relaid.append later) first

end Relaid
end Rendered

namespace Node

theorem renderAt_relaid (tag : Tag) {container : Container} (inline : container.isInline) {ns ms : List Node} {first : Text}
    (below : Rendered.Relaid (renderAll [] first ns) (renderAll [] first ms)) :
    Rendered.Relaid (renderAt [] first (branch tag container ns)) (renderAt [] first (branch tag container ms)) := by
  have around := below.between container.delimiters.1 container.delimiters.2
  cases container with
  | autoLink dest => exact .refl _
  | emphasis | strong | image | link => exact around
  | _ => exact absurd inline Bool.false_ne_true

theorem renderAll_relaid {ns ms : List Node} (relaid : Relaid ns ms) (first : Text) :
    Rendered.Relaid (renderAll [] first ns) (renderAll [] first ms) := by
  induction relaid generalizing first with
  | nil => exact .refl _
  | same n rest ih => exact (Rendered.Relaid.refl (renderAt [] first n)).append ih
  | plain old new texts rest ih =>
    rw [renderAll_plain old, renderAll_plain new]
    exact (ih first).behind texts
  | branch tag inline below rest ihBelow ih => exact (renderAt_relaid tag inline (ihBelow first)).append ih

theorem identity_relaid {ns ms : List Node} (relaid : Relaid ns ms) (tag : Tag) (container : Container) :
    (branch tag container ns).identity = (branch tag container ms).identity := by
  have texts := renderAll_relaid relaid []
  rw [identity, identity, renderInline, renderInline, children, children]
  generalize renderAll [] [] ns = x at texts ⊢
  generalize renderAll [] [] ms = y at texts ⊢
  cases texts with
  | error e => rfl
  | ok relaid first => exact congrArg Except.ok (Text.normalize_eq_iff.mpr relaid.words)

/-- Wrapping a text keeps its words, and so the identity. -/
theorem identity_wrapped {ns : List Node} {width : Int} {lines : List Text} (wrapped : wrappedLines? ns width = some lines)
    (tag : Tag) (container : Container) :
    (branch tag container [leaf (.text (Text.joinWith ['\n'] lines))]).identity = (branch tag container ns).identity := by
  obtain ⟨old, plain, words⟩ := plain_of_wrappedLines? wrapped
  exact identity_congr_words plain words

theorem identity_eq_iff {n m : Node} {t u : Text} (written : n.renderInline = .ok t) (written' : m.renderInline = .ok u) :
    n.identity = m.identity ↔ t.words = u.words := by
  rw [identity, identity, written, written', ← Text.normalize_eq_iff]
  exact Except.ok.injEq t.normalize u.normalize ▸ Iff.rfl

end Node

/-! ### Links with words -/

/-- The link that a visit shows, with the words of its text, unless there are none. -/
def Visit.worded? (v : Visit) : Option (Sight × List Text) :=
  match v.node with
  | .branch tag (.link form position) _ =>
    match v.node.renderInline with
    | .ok text =>
      if text.words.isEmpty then none else some (⟨tag, .branch (.link form position), v.parentOf⟩, text.words)
    | .error _ => none
  | _ => none

theorem Visit.solid_of_worded? {v : Visit} {s : Sight} {ws : List Text} (worded : v.worded? = some (s, ws)) :
    ∀ w ∈ ws, Text.Solid w := by
  unfold worded? at worded
  split at worded
  · split at worded
    · split at worded
      · exact nomatch worded
      · obtain ⟨-, rfl⟩ := Prod.mk.inj (Option.some.inj worded)
        exact fun w => Text.solid_of_mem_words
    · exact nomatch worded
  · exact nomatch worded

/-- The identity of a link is its words with single spaces between. -/
theorem Visit.link?_eq_worded? (v : Visit) : v.link? = v.worded?.map fun l => (l.1, Text.joinWith [' '] l.2) := by
  obtain ⟨node, parent⟩ := v
  cases node with
  | branch tag container ns =>
    cases container with
    | link form position =>
      simp only [link?, worded?]
      cases written : (Node.branch tag (.link form position) ns).renderInline with
      | error e => simp [Node.identity, written]
      | ok text =>
        have empty : (Text.joinWith [' '] text.words).isEmpty = text.words.isEmpty := by
          rw [Bool.eq_iff_iff, List.isEmpty_iff, List.isEmpty_iff]
          exact Text.joinWith_eq_nil_iff fun w => Text.solid_of_mem_words
        simp only [Node.identity_of_renderInline written, empty]
        split <;> rfl
    | _ => rfl
  | _ => rfl

namespace Index

/-- The links of an index are those among the visits whose texts have words. They have these words as identities, and the
same id exactly if they have the same words. -/
structure ByWords (index : Index) (seen : List Visit) : Prop where
  links : index.links.map (·.sight) = (seen.filterMap Visit.worded?).map (·.1)
  identities : index.links.map (·.identity) = (seen.filterMap Visit.worded?).map fun l => Text.joinWith [' '] l.2
  ids : ∀ i j : Nat, index.links[i]?.map (·.id) = index.links[j]?.map (·.id) ↔
    (seen.filterMap Visit.worded?)[i]?.map (·.2) = (seen.filterMap Visit.worded?)[j]?.map (·.2)

/-- If two functions tell the same members of a list apart, they tell the same places apart. -/
theorem getElem?_map_eq_iff {α β γ : Type} {l : List α} {f : α → β} {g : α → γ}
    (agree : ∀ a ∈ l, ∀ b ∈ l, f a = f b ↔ g a = g b) (i j : Nat) :
    l[i]?.map f = l[j]?.map f ↔ l[i]?.map g = l[j]?.map g := by
  cases first : l[i]? with
  | none => cases l[j]? <;> simp
  | some a =>
    cases second : l[j]? with
    | none => simp
    | some b => simpa using agree a (List.mem_of_getElem? first) b (List.mem_of_getElem? second)

theorem Collected.byWords {index : Index} {seen : List Visit} (all : index.Collected seen) : index.ByWords seen := by
  have links : index.links.map (fun r => (r.sight, r.identity)) =
      (seen.filterMap Visit.worded?).map fun l => (l.1, Text.joinWith [' '] l.2) := by
    rw [all.links, List.map_filterMap]
    exact List.filterMap_congr fun v _ => v.link?_eq_worded?
  have sights := congrArg (List.map Prod.fst) links
  have identities := congrArg (List.map Prod.snd) links
  rw [List.map_map, List.map_map] at sights identities
  refine ⟨sights, identities, fun i j => ?_⟩
  · have apart : ∀ l ∈ seen.filterMap Visit.worded?, ∀ l' ∈ seen.filterMap Visit.worded?,
        Text.joinWith [' '] l.2 = Text.joinWith [' '] l'.2 ↔ l.2 = l'.2 := by
      intro l inside l' inside'
      obtain ⟨v, -, worded⟩ := List.mem_filterMap.mp inside
      obtain ⟨v', -, worded'⟩ := List.mem_filterMap.mp inside'
      refine ⟨fun same => ?_, congrArg _⟩
      rw [← Text.words_joinWith_space (Visit.solid_of_worded? worded), same,
        Text.words_joinWith_space (Visit.solid_of_worded? worded')]
    calc
      index.links[i]?.map (·.id) = index.links[j]?.map (·.id)
        ↔ index.links[i]?.map (·.identity) = index.links[j]?.map (·.identity) :=
          getElem?_map_eq_iff (fun r inside r' inside' => all.id_eq_iff inside inside') i j
      _ ↔ (seen.filterMap Visit.worded?)[i]?.map (fun l => Text.joinWith [' '] l.2) =
          (seen.filterMap Visit.worded?)[j]?.map fun l => Text.joinWith [' '] l.2 := by
        rw [← List.getElem?_map, ← List.getElem?_map, ← List.getElem?_map, ← List.getElem?_map]
        exact identities ▸ Iff.rfl
      _ ↔ (seen.filterMap Visit.worded?)[i]?.map (·.2) = (seen.filterMap Visit.worded?)[j]?.map (·.2) :=
          getElem?_map_eq_iff apart i j

/-- The normal form of a text is its words with single spaces between. So links get one id exactly if their texts have the
same words, over any number of calls to collect, and neither laying out a text anew nor wrapping it changes an identity. -/
theorem collect_byWords (trees : List Node) :
    (∀ t : Text, t.NormalForm t.normalize) ∧
      (match trees.foldlM collect empty with
        | .ok index => index.ByWords (trees.flatMap Node.walk)
        | .error _ => ∃ tree ∈ trees, tree.collectable = false) ∧
      (∀ (n m : Node) (t u : Text), n.renderInline = .ok t → m.renderInline = .ok u →
        (n.identity = m.identity ↔ t.words = u.words)) ∧
      ∀ tag container ns,
        (∀ ms, Node.Relaid ns ms → (Node.branch tag container ms).identity = (Node.branch tag container ns).identity) ∧
        ∀ width lines, wrappedLines? ns width = some lines →
          (Node.branch tag container [.leaf (.text (Text.joinWith ['\n'] lines))]).identity =
            (Node.branch tag container ns).identity := by
  refine ⟨Text.normalForm, ?_, fun n m t u => Node.identity_eq_iff, fun tag container ns =>
    ⟨fun ms relaid => ?_, fun width lines wrapped => ?_⟩⟩
  · have left := foldlM_collect trees empty
    have all := (absorb_all trees).1
    cases collected : trees.foldlM collect empty with
    | error e =>
      rw [collected] at left
      exact left
    | ok index =>
      rw [collected] at left
      obtain ⟨rfl, visits⟩ := left
      exact visits ▸ all.byWords
  · exact (Node.identity_relaid relaid tag container).symm
  · exact Node.identity_wrapped wrapped tag container

/-- A link text in one line, and the same text in four: broken between raw texts, in one of them and in an emphasis. -/
def oneLine : List Node :=
  [.leaf (.text "a b ".toList), .fresh .emphasis [.leaf (.text "c d".toList)], .leaf (.text " e".toList)]

def fourLines : List Node :=
  [.leaf (.text "a\nb".toList), .leaf (.lineBreak true),
    .fresh .emphasis [.leaf (.text "c".toList), .leaf (.lineBreak true), .leaf (.text "d".toList)],
    .leaf (.text " \t e".toList)]

theorem oneLine_relaid : Node.Relaid oneLine fourLines := by
  have space : ∀ {t u : Text}, Text.Relaid t u → Text.Relaid (' ' :: t) ('\n' :: u) :=
    Text.Relaid.gap (r := [' ']) (s := ['\n']) (List.cons_ne_nil _ _) (List.cons_ne_nil _ _) rfl rfl
  have wide : Text.Relaid " e".toList " \t e".toList :=
    .gap (r := [' ']) (s := [' ', '\t', ' ']) (List.cons_ne_nil _ _) (List.cons_ne_nil _ _) rfl rfl (.same 'e' .nil)
  refine .plain (.text _ .nil) (.text _ (.softBreak .nil)) (.same 'a' (space (.same 'b' (space .nil)))) ?_
  refine .branch _ rfl ?_ (.plain (.text _ .nil) (.text _ .nil) wide .nil)
  exact .plain (.text _ .nil) (.text _ (.softBreak (.text _ .nil))) (.same 'c' (space (.same 'd' .nil))) .nil

/-- A text of raw texts and a soft break alone, and the lines that it is wrapped into. -/
def plainLine : List Node :=
  [.leaf (.text "words in one".toList), .leaf (.lineBreak true), .leaf (.text " line".toList)]

def plainLines : List Text := ["words in one".toList, "line".toList]

theorem oneLine_identified :
    let link (ns : List Node) : Node := .fresh (.link (.inline ⟨"u".toList, none⟩) none) ns
    (Node.Relaid oneLine fourLines ∧ (link fourLines).identity = (link oneLine).identity) ∧
      (wrappedLines? plainLine 12 = some plainLines ∧
        (link [.leaf (.text (Text.joinWith ['\n'] plainLines))]).identity = (link plainLine).identity) ∧
      (link oneLine).renderInline = .ok "a b *c d* e".toList ∧
        (link plainLine).renderInline = .ok "words in one\n line".toList ∧
        ((link oneLine).identity = (link plainLine).identity ↔
          Text.words "a b *c d* e".toList = Text.words "words in one\n line".toList) := by
  intro link
  obtain ⟨-, -, byWords, changes⟩ := collect_byWords []
  have wrapped : wrappedLines? plainLine 12 = some plainLines := by decide
  have relaid := (changes ⟨0, 0⟩ (.link (.inline ⟨"u".toList, none⟩) none) oneLine).1 fourLines oneLine_relaid
  have rewrapped := (changes ⟨0, 0⟩ (.link (.inline ⟨"u".toList, none⟩) none) plainLine).2 12 plainLines wrapped
  have written : (link oneLine).renderInline = .ok "a b *c d* e".toList := by rfl
  have written' : (link plainLine).renderInline = .ok "words in one\n line".toList := by rfl
  exact ⟨⟨oneLine_relaid, relaid⟩, ⟨wrapped, rewrapped⟩, written, written', byWords _ _ _ _ written written'⟩

end Index
end MarkdownLinks
