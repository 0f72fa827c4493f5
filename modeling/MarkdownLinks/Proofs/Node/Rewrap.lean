import Mathlib.Data.List.Forall2
import MarkdownLinks.Link.Reflow
import MarkdownLinks.Proofs.Node.Writable

/-!
Trees in which link texts have been broken into lines anew. `Rewrapped` says slot by slot what may have changed;
`rewrap` makes such trees, and it does not matter whether a tree is rewrapped before or after other changes.
-/

namespace MarkdownLinks

/-- The second tree is the first, but shortcut references whose text is plain may have the words of that text in
other lines. -/
inductive Rewrapped : Node → Node → Prop
  | leaf (l : Leaf) : Rewrapped (.leaf l) (.leaf l)
  | definition (tag : Tag) (label : Text) (target : Target) :
      Rewrapped (.definition tag label target) (.definition tag label target)
  | branch (tag : Tag) (container : Container) {ns ms : List Node} (each : List.Forall₂ Rewrapped ns ms) :
      Rewrapped (.branch tag container ns) (.branch tag container ms)
  | text (tag : Tag) (label : Text) (position : Option Position) {ns : List Node} {texts : List Text} {text : Text}
      (plain : ns.mapM plainText? = some texts) (words : text.words = Text.words texts.flatten) :
      Rewrapped (.branch tag (.link (.reference label .shortcut) position) ns)
        (.branch tag (.link (.reference label .shortcut) position) [.leaf (.text text)])

/-! ### Plain texts -/

theorem mapM_plainText?_cons {n : Node} {ns : List Node} {texts : List Text}
    (plain : (n :: ns).mapM plainText? = some texts) :
    ∃ t ts, plainText? n = some t ∧ ns.mapM plainText? = some ts ∧ texts = t :: ts := by
  rw [List.mapM_cons] at plain
  obtain ⟨t, first, plain⟩ := Option.bind_eq_some_iff.mp plain
  obtain ⟨ts, rest, plain⟩ := Option.bind_eq_some_iff.mp plain
  exact ⟨t, ts, first, rest, (Option.some.inj plain).symm⟩

theorem eq_leaf_of_plainText? {n : Node} {t : Text} (plain : plainText? n = some t) :
    ∃ l, n = .leaf l ∧ n.isBlankLine = false := by
  cases n with
  | leaf l =>
    refine ⟨l, rfl, ?_⟩
    cases l with
    | blankLine => exact nomatch plain
    | _ => rfl
  | definition tag label target => exact nomatch plain
  | branch tag container ns => exact nomatch plain

theorem eq_leaf_of_mapM_plainText? {ns : List Node} {texts : List Text} (plain : ns.mapM plainText? = some texts) :
    ∀ n ∈ ns, ∃ l, n = .leaf l ∧ n.isBlankLine = false := by
  induction ns generalizing texts with
  | nil => exact fun _ inside => absurd inside List.not_mem_nil
  | cons n ns ih =>
    obtain ⟨t, ts, first, rest, -⟩ := mapM_plainText?_cons plain
    exact List.forall_mem_cons.mpr ⟨eq_leaf_of_plainText? first, ih rest⟩

theorem tag?_of_mapM_plainText? {ns : List Node} {texts : List Text} (plain : ns.mapM plainText? = some texts) :
    ∀ n ∈ ns, n.tag? = none := by
  intro n inside
  obtain ⟨l, rfl, -⟩ := eq_leaf_of_mapM_plainText? plain n inside
  rfl

/-- A change of branches leaves a plain text alone. -/
theorem map_of_mapM_plainText? {ns : List Node} {texts : List Text} (plain : ns.mapM plainText? = some texts)
    {f : Node → Node} (leaves : ∀ l, f (.leaf l) = .leaf l) : ns.map f = ns := by
  refine (List.map_congr_left fun n inside => ?_).trans (List.map_id ns)
  obtain ⟨l, rfl, -⟩ := eq_leaf_of_mapM_plainText? plain n inside
  exact leaves l

/-- What is rewrapped shows the same nodes with tags in the same slots. -/
theorem Rewrapped.sightsFrom {n m : Node} (rewrapped : Rewrapped n m) (parent : Parent) :
    m.sightsFrom parent = n.sightsFrom parent := by
  induction n generalizing m parent with
  | leaf l =>
    cases rewrapped
    rfl
  | definition tag label target =>
    cases rewrapped
    rfl
  | branch tag container ns ih =>
    cases rewrapped with
    | branch _ _ each =>
      rw [Node.sightsFrom_branch, Node.sightsFrom_branch]
      congr 1
      induction each with
      | nil => rfl
      | cons first rest later =>
        rw [List.flatMap_cons, List.flatMap_cons, ih _ List.mem_cons_self first,
          later fun n inside => ih n (List.mem_cons_of_mem _ inside)]
    | text _ label position plain words =>
      have blind : ns.flatMap (Node.sightsFrom (.branch tag (.link (.reference label .shortcut) position))) = [] :=
        List.flatMap_eq_nil_iff.mpr fun n inside =>
          Node.sightsFrom_eq_nil_of_leaf (tag?_of_mapM_plainText? plain n inside)
      rw [Node.sightsFrom_branch, Node.sightsFrom_branch, blind]
      rfl

namespace Node

/-! ### Rewrapping -/

/-- The children of a node in a place with a new text, or in one without. -/
def rewrapped (texts : Nat → Option Text) (t : Tag) (ns : List Node) : List Node :=
  match texts t.place with
  | some text => [leaf (.text text)]
  | none => ns

/-- The tree with new texts for the branches in certain places. -/
def rewrap (texts : Nat → Option Text) : Node → Node := rebuild (rewrapped texts)

variable {texts : Nat → Option Text}

@[simp] theorem rewrap_leaf (l : Leaf) : (leaf l).rewrap texts = leaf l := rfl

@[simp] theorem rewrap_definition (tag : Tag) (label : Text) (target : Target) :
    (definition tag label target).rewrap texts = definition tag label target := rfl

theorem rewrap_branch (tag : Tag) (container : Container) (ns : List Node) :
    (branch tag container ns).rewrap texts = branch tag container (rewrapped texts tag (ns.map (rewrap texts))) :=
  rebuild_branch _ tag container ns

theorem rewrapped_of_none {t : Tag} (old : texts t.place = none) (ns : List Node) : rewrapped texts t ns = ns := by
  rw [rewrapped, old]

theorem rewrapped_of_some {t : Tag} {text : Text} (new : texts t.place = some text) (ns : List Node) :
    rewrapped texts t ns = [leaf (.text text)] := by
  rw [rewrapped, new]

theorem keeps_rewrapped (texts : Nat → Option Text) : Keeps (rewrapped texts) := by
  intro t ns m inside
  unfold rewrapped at inside
  split at inside
  · exact Or.inr ⟨_, List.mem_singleton.mp inside⟩
  · exact Or.inl inside

theorem of_mem_rewrap {n : Node} {t : Tag} {c : Container} {ms : List Node}
    (member : .branch t c ms ∈ (n.rewrap texts).subnodes) :
    ∃ ns, .branch t c ns ∈ n.subnodes ∧ ms = rewrapped texts t (ns.map (rewrap texts)) :=
  of_mem_rebuild (keeps_rewrapped texts).tags member

/-- A rewrapped list that is plain was not changed. -/
theorem eq_of_mapM_plainText?_rewrap {ns : List Node} {ts : List Text}
    (plain : (ns.map (rewrap texts)).mapM plainText? = some ts) : ns.map (rewrap texts) = ns := by
  refine (List.map_congr_left fun n inside => ?_).trans (List.map_id ns)
  obtain ⟨l, same, -⟩ := eq_leaf_of_mapM_plainText? plain _ (List.mem_map_of_mem inside)
  cases n with
  | leaf l => rfl
  | definition tag label target => exact nomatch same
  | branch tag container ns => rw [rewrap_branch] at same; exact nomatch same

theorem rewrap_isBlankLine (n : Node) : (n.rewrap texts).isBlankLine = n.isBlankLine := rebuild_isBlankLine _ n

theorem rewrapped_map {f : Node → Node} (leaves : ∀ l, f (leaf l) = leaf l) (t : Tag) (ns : List Node) :
    (rewrapped texts t ns).map f = rewrapped texts t (ns.map f) := by
  unfold rewrapped
  cases texts t.place with
  | none => rfl
  | some text => rw [List.map_singleton, leaves]

/-- Rewrapping and giving branches other tags in their places go together. -/
theorem retag_rewrap {φ : Tag → Container → Tag × Container} (places : ∀ t c, (φ t c).1.place = t.place) (n : Node) :
    (n.rewrap texts).retag φ = (n.retag φ).rewrap texts := by
  refine retag_rebuild fun t c ns _ ms => ?_
  rw [rewrapped_map fun _ => rfl, rewrapped, rewrapped, places]

/-- To give one branch more a new text is to rewrap with one text more. -/
theorem rewrap_update {n : Node} {tag : Tag} (alone : ∀ t c ns, .branch t c ns ∈ n.subnodes → t.place = tag.place →
    t = tag) (text : Text) : (n.rewrap texts).rebuild (fun t ns => if t = tag then [leaf (.text text)] else ns) =
      n.rewrap (Function.update texts tag.place (some text)) := by
  have rewraps : ∀ m : Node, m.rewrap texts = m.rebuild (rewrapped texts) := fun _ => rfl
  rw [rewraps, rebuild_rebuild fun t ns => rewrapped_map (fun _ => rfl) t ns]
  refine rebuild_congr fun t c ns member ms => ?_
  by_cases own : t.place = tag.place
  · rw [if_pos (alone t c ns member own), rewrapped_of_some (by rw [own, Function.update_self])]
  · rw [if_neg fun same => own (congrArg Tag.place same), rewrapped, rewrapped, Function.update_of_ne own]

/-- Rewrapping goes together with changes of lists that leave a single text alone. -/
theorem rebuild_rewrap {κ : Tag → List Node → List Node}
    (natural : ∀ t ns, (κ t ns).map (rewrap texts) = κ t (ns.map (rewrap texts)))
    (single : ∀ t text, κ t [leaf (.text text)] = [leaf (.text text)]) (n : Node) :
    (n.rewrap texts).rebuild κ = (n.rebuild κ).rewrap texts := by
  have same : (fun t ns => κ t (rewrapped texts t ns)) = fun t ns => rewrapped texts t (κ t ns) := by
    funext t ns
    unfold rewrapped
    cases texts t.place with
    | none => rfl
    | some text => exact single t text
  have rewraps : ∀ m : Node, m.rewrap texts = m.rebuild (rewrapped texts) := fun _ => rfl
  rw [rewraps, rebuild_rebuild fun t ns => rewrapped_map (fun _ => rfl) t ns, same, rewraps, rebuild_rebuild natural]

/-- A tree is rewrapped to one that shows the same nodes, if the texts that go were plain. -/
theorem sightsFrom_rewrap {n : Node} (tagless : ∀ t c ns, .branch t c ns ∈ n.subnodes → (texts t.place).isSome →
    ∀ m ∈ ns, m.tag? = none) (parent : Parent) : (n.rewrap texts).sightsFrom parent = n.sightsFrom parent := by
  refine sightsFrom_rebuild (fun t c ns member parent => ?_) parent
  unfold rewrapped
  cases new : texts t.place with
  | none => rfl
  | some text =>
    refine (List.flatMap_eq_nil_iff.mpr fun m inside => ?_).symm
    obtain ⟨k, old, rfl⟩ := List.mem_map.mp inside
    exact sightsFrom_eq_nil_of_leaf ((rebuild_tag? _ k).trans (tagless t c ns member (by rw [new]; rfl) k old))

theorem forall₂_map_right {R : Node → Node → Prop} {f : Node → Node} {ns : List Node} (each : ∀ n ∈ ns, R n (f n)) :
    List.Forall₂ R ns (ns.map f) := by
  rw [List.forall₂_map_right_iff, List.forall₂_same]
  exact each

/-- Rewrapping with the same words, and nothing but plain texts of shortcut references, is what `Rewrapped` allows. -/
theorem rewrapped_rewrap {n : Node} (allowed : ∀ t c ns text, .branch t c ns ∈ n.subnodes →
    texts t.place = some text → (∃ label position, c = .link (.reference label .shortcut) position) ∧
      ∃ old, ns.mapM plainText? = some old ∧ text.words = Text.words old.flatten) : Rewrapped n (n.rewrap texts) := by
  induction n with
  | leaf l => exact .leaf l
  | definition tag label target => exact .definition tag label target
  | branch tag container ns ih =>
    cases new : texts tag.place with
    | none =>
      rw [rewrap_branch, rewrapped_of_none new]
      refine .branch tag container (forall₂_map_right fun n inside => ih n inside fun t c ms text member => ?_)
      exact allowed t c ms text (mem_subnodes_of_child inside member)
    | some text =>
      obtain ⟨⟨label, position, rfl⟩, old, plain, words⟩ :=
        allowed tag container ns text (mem_subnodes_self _) new
      rw [rewrap_branch, rewrapped_of_some new]
      exact .text tag label position plain words

end Node
end MarkdownLinks
