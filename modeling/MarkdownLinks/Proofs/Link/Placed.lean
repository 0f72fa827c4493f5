import Mathlib.Data.Char
import Mathlib.Data.List.Destutter
import Mathlib.Data.List.Lex
import MarkdownLinks.Proofs.Link.Fixpoint
import MarkdownLinks.Proofs.Link.Rewritten

/-!
The layout that placing definitions leaves. Apart from blank lines and definitions the children of the document are the
nodes that it had, in their order. Each run of definitions is sorted by label and stands at the end of a section: one
blank line sets it off from the text of the section, and one more from the heading of the next.
-/

namespace MarkdownLinks

open Rewriting

/-! ### Labels in order -/

/-- Labels are compared character by character, by code points. -/
theorem Text.le_eq (s t : Text) : Text.le s t = decide (s ≤ t) := by
  induction s generalizing t with
  | nil => simp [Text.le, ← not_lt]
  | cons a s ih =>
    cases t with
    | nil => simp [Text.le, ← not_lt]
    | cons b t =>
      rw [Text.le]
      by_cases same : a = b
      · rw [if_pos same, ih, same]
        simp [← not_lt]
      · have points : a.toNat < b.toNat ↔ a < b := by
          rw [Char.lt_def, UInt32.lt_iff_toNat_lt]
          rfl
        rw [if_neg same, decide_eq_decide, points, ← not_lt, List.cons_lt_cons_iff]
        simp [Ne.symm same, lt_iff_le_and_ne, same]

theorem insertByLabel_sorted (d : NewDefinition) {ds : List NewDefinition} (sorted : ds.Pairwise (·.label ≤ ·.label)) :
    (insertByLabel d ds).Pairwise (·.label ≤ ·.label) := by
  induction ds with
  | nil => exact List.pairwise_singleton _ d
  | cons e es ih =>
    obtain ⟨least, rest⟩ := List.pairwise_cons.mp sorted
    rw [insertByLabel, Text.le_eq]
    by_cases below : d.label ≤ e.label
    · rw [if_pos (decide_eq_true below)]
      refine List.pairwise_cons.mpr ⟨fun f inside => ?_, sorted⟩
      rcases List.mem_cons.mp inside with rfl | later
      · exact below
      · exact below.trans (least f later)
    · rw [if_neg (by simpa using below)]
      refine List.pairwise_cons.mpr ⟨fun f inside => ?_, ih rest⟩
      rcases List.mem_cons.mp ((insertByLabel_perm d es).mem_iff.mp inside) with rfl | later
      · exact (le_total _ _).resolve_left below
      · exact least f later

theorem sortByLabel_sorted (ds : List NewDefinition) : (sortByLabel ds).Pairwise (·.label ≤ ·.label) := by
  induction ds with
  | nil => exact List.Pairwise.nil
  | cons d ds ih => exact insertByLabel_sorted d ih

/-- Definitions with different labels are put in strict order. -/
theorem definitionNodes_sorted {ds : List NewDefinition} (nodup : (ds.map (·.label)).Nodup) (fresh : Nat) :
    ((definitionNodes fresh (sortByLabel ds)).filterMap Node.definition?).Pairwise (·.1 < ·.1) := by
  have labels : ((sortByLabel ds).map (·.label)).Nodup := ((sortByLabel_perm ds).map _).nodup_iff.mpr nodup
  rw [definitionNodes_definitions, List.pairwise_map]
  have apart := List.pairwise_map.mp labels
  exact (sortByLabel_sorted ds).and apart |>.imp fun order => lt_of_le_of_ne order.1 order.2

/-! ### Blank lines in runs -/

/-- Two nodes that may stand side by side where blank lines have been collapsed. -/
def Spaced (m n : Node) : Prop := ¬ (m.isBlankLine ∧ n.isBlankLine)

instance : DecidableRel Spaced := fun m n => inferInstanceAs (Decidable (¬ (m.isBlankLine ∧ n.isBlankLine)))

theorem destutter'_eq_collapse (n : Node) (ns : List Node) :
    ns.destutter' Spaced n = n :: collapseBlankLines n.isBlankLine ns := by
  induction ns generalizing n with
  | nil => rfl
  | cons m ns ih =>
    rw [List.destutter', collapseBlankLines, ih, ih]
    cases first : n.isBlankLine <;> cases second : m.isBlankLine <;> simp [Spaced, first, second]

/-- Collapsing blank lines leaves one of each run. -/
theorem collapseBlankLines_eq_destutter (ns : List Node) : collapseBlankLines false ns = ns.destutter Spaced := by
  cases ns with
  | nil => rfl
  | cons n ns =>
    rw [List.destutter_cons', destutter'_eq_collapse, collapseBlankLines]
    cases n.isBlankLine <;> rfl

/-! ### Runs of definitions -/

/-- A stretch of a list that holds definitions only and cannot be made longer. -/
structure DefinitionRun (ns pre run post : List Node) : Prop where
  split : ns = pre ++ run ++ post
  filled : run ≠ []
  all : ∀ n ∈ run, n.definition? ≠ none
  before : ∀ n ∈ pre.getLast?, n.definition? = none
  after : ∀ n ∈ post.head?, n.definition? = none

/-- A run of definitions in strict order of their labels. Above it is one blank line below a node that is none; below it
the document ends, or there is one blank line and then a heading. -/
structure SetOff (pre run post : List Node) : Prop where
  sorted : (run.filterMap Node.definition?).Pairwise (·.1 < ·.1)
  above : ∃ text n, pre = text ++ [n, .leaf .blankLine] ∧ n.isBlankLine = false
  below : post = [] ∨ ∃ h more, post = .leaf .blankLine :: h :: more ∧ h.isHeading

/-- In a list with text first, definitions next, and then something that does not begin with one, a run is the definitions
in the middle, or it lies in what follows. -/
theorem DefinitionRun.cases {text defs rest pre run post : List Node} (h : DefinitionRun (text ++ defs ++ rest) pre run post)
    (plain : ∀ n ∈ text, n.definition? = none) (all : ∀ n ∈ defs, n.definition? ≠ none)
    (edge : ∀ n ∈ rest.head?, n.definition? = none) :
    (pre = text ∧ run = defs ∧ post = rest) ∨ ∃ more, pre = text ++ defs ++ more ∧ DefinitionRun rest more run post := by
  obtain ⟨d, run', rfl⟩ := List.exists_cons_of_ne_nil h.filled
  -- The text is part of what goes before the run, since the run begins with a definition.
  obtain ⟨gap, rfl, later⟩ : ∃ gap, pre = text ++ gap ∧ defs ++ rest = gap ++ (d :: run' ++ post) := by
    have split := h.split
    rw [List.append_assoc, List.append_assoc] at split
    rcases List.append_eq_append_iff.mp split with ⟨gap, same, later⟩ | ⟨_ | ⟨n, gap⟩, same, later⟩
    · exact ⟨gap, same, later⟩
    · exact ⟨[], by simpa using same.symm, by simpa using later.symm⟩
    · obtain ⟨rfl, -⟩ := List.cons.inj later
      exact absurd (plain d (by simp [same])) (h.all d List.mem_cons_self)
  have last : ∀ n ∈ gap.getLast?, n.definition? = none := by
    intro n inside
    refine h.before n ?_
    rw [List.getLast?_append, inside]
    rfl
  rcases List.append_eq_append_iff.mp later with ⟨more, rfl, split⟩ | ⟨tail, rfl, split⟩
  · right
    refine ⟨more, (List.append_assoc text defs more).symm, ?_, h.filled, h.all, fun n inside => last n ?_, h.after⟩
    · rw [split, List.append_assoc]
    · rw [List.getLast?_append, inside]
      rfl
  · -- What goes before the run ends outside the definitions, so it is the text.
    obtain rfl : gap = [] := by
      by_contra filled
      exact all _ (List.mem_append_left _ (List.getLast_mem filled)) (last _ (List.getLast?_eq_some_getLast filled))
    rw [List.nil_append] at all ⊢
    rcases List.append_eq_append_iff.mp split with ⟨more, rfl, behind⟩ | ⟨more, same, behind⟩
    · cases more with
      | nil => exact Or.inl ⟨List.append_nil text, (List.append_nil _).symm, by simpa using behind⟩
      | cons n more =>
        subst behind
        exact absurd (h.after n rfl) (all n (by simp))
    · cases more with
      | nil => exact Or.inl ⟨List.append_nil text, by simpa using same, by simpa using behind.symm⟩
      | cons n more =>
        subst behind
        exact absurd (edge n rfl) (h.all n (by simp [same]))

theorem DefinitionRun.skip {text rest pre run post : List Node} (h : DefinitionRun (text ++ rest) pre run post)
    (plain : ∀ n ∈ text, n.definition? = none) (edge : ∀ n ∈ rest.head?, n.definition? = none) :
    ∃ more, pre = text ++ more ∧ DefinitionRun rest more run post := by
  have split : DefinitionRun (text ++ [] ++ rest) pre run post := by rwa [List.append_nil]
  rcases split.cases plain (fun _ inside => nomatch inside) edge with ⟨-, empty, -⟩ | ⟨more, same, later⟩
  · exact absurd empty h.filled
  · exact ⟨more, by rw [same, List.append_nil], later⟩

theorem SetOff.below_text {pre run post : List Node} (h : SetOff pre run post) (text : List Node) :
    SetOff (text ++ pre) run post := by
  obtain ⟨more, n, rfl, shown⟩ := h.above
  exact ⟨h.sorted, ⟨text ++ more, n, (List.append_assoc _ _ _).symm, shown⟩, h.below⟩

/-! ### Sections with their definitions -/

/-- A section without definitions, and nodes that can be attached to it: definitions in the order of their labels, none if
the section shows nothing. -/
structure Attachable (content nodes : List Node) : Prop where
  plain : ∀ n ∈ content, n.definition? = none
  all : ∀ n ∈ nodes, n.definition? ≠ none
  sorted : (nodes.filterMap Node.definition?).Pairwise (·.1 < ·.1)
  shown : nodes ≠ [] → dropLastBlankLines content ≠ []

theorem not_isHeading_of_definition {n : Node} (definition : n.definition? ≠ none) : n.isHeading = false := by
  cases n with
  | leaf l => rfl
  | definition tag label target => rfl
  | branch tag container ns => exact absurd rfl definition

theorem not_isBlankLine_of_definition {n : Node} (definition : n.definition? ≠ none) : n.isBlankLine = false := by
  cases n with
  | leaf l => exact absurd rfl definition
  | definition tag label target => rfl
  | branch tag container ns => rfl

theorem definition?_of_isHeading {n : Node} (heading : n.isHeading) : n.definition? = none := by
  cases n with
  | leaf l => rfl
  | definition tag label target => exact absurd heading Bool.false_ne_true
  | branch tag container ns => rfl

theorem getLast?_dropLastBlankLines {ns : List Node} {n : Node} (last : n ∈ (dropLastBlankLines ns).getLast?) :
    n.isBlankLine = false := by
  have filled : dropLastBlankLines ns ≠ [] := by
    intro empty
    rw [empty] at last
    exact nomatch last
  rw [List.getLast?_eq_some_getLast filled] at last
  obtain rfl := Option.some.inj last
  have shown : ¬ ((dropLastBlankLines ns).getLast filled).isBlankLine :=
    List.rdropWhile_last_not Node.isBlankLine ns filled
  simpa using shown

/-- Where there are definitions, they stand between blank lines behind the text of the section. -/
theorem Attachable.shape {content nodes : List Node} (h : Attachable content nodes) (filled : nodes ≠ []) (isLast : Bool) :
    ∃ text n, attach content nodes isLast =
        text ++ [n, .leaf .blankLine] ++ nodes ++ (if isLast then [] else [.leaf .blankLine]) ∧
      (∀ m ∈ text ++ [n, .leaf .blankLine], m.definition? = none) ∧ n.isBlankLine = false := by
  have shown := h.shown filled
  obtain ⟨blanks, split, -⟩ := dropLastBlankLines_append content
  have plain : ∀ m ∈ dropLastBlankLines content, m.definition? = none := fun m inside =>
    h.plain m (split ▸ List.mem_append_left _ inside)
  have last := getLast?_dropLastBlankLines (List.getLast?_eq_some_getLast shown)
  refine ⟨(dropLastBlankLines content).dropLast, (dropLastBlankLines content).getLast shown, ?_, ?_, last⟩
  · have joined := List.dropLast_append_getLast shown
    have nonempty : nodes.isEmpty = false := by simpa using filled
    conv_lhs => simp [attach, nonempty, shown]
    conv_lhs => rw [← joined]
    simp
  · intro m inside
    rcases List.mem_append.mp inside with text | line
    · exact plain m (List.dropLast_subset _ text)
    · rcases List.mem_cons.mp line with rfl | line
      · exact plain _ (List.getLast_mem shown)
      · rw [List.mem_singleton.mp line]
        rfl

theorem Attachable.plain_of_nil {content : List Node} (h : Attachable content []) (isLast : Bool) :
    ∀ n ∈ attach content [] isLast, n.definition? = none := by
  intro n inside
  rcases mem_attach inside with old | blank | new
  · exact h.plain n old
  · exact definition?_of_isBlankLine blank
  · exact nomatch new

/-- What follows a section is nothing or begins with a heading. -/
theorem attachAll_opening {ss defs : List (List Node)} (pairs : List.Forall₂ Attachable ss defs)
    (headed : ∀ s ∈ ss, Headed s) :
    (ss = [] ∧ (attachAll ss defs).flatten = []) ∨
      (ss ≠ [] ∧ ∃ h more, (attachAll ss defs).flatten = h :: more ∧ h.isHeading) := by
  cases pairs with
  | nil => exact Or.inl ⟨rfl, rfl⟩
  | @cons s nodes ss defs own later =>
    right
    have plain : ∀ n ∈ nodes, n.isHeading = false := fun n inside => not_isHeading_of_definition (own.all n inside)
    obtain ⟨h, more, shape, heading, -⟩ := (headed s List.mem_cons_self).attach plain ss.isEmpty
    refine ⟨List.cons_ne_nil s ss, h, more ++ (attachAll ss defs).flatten, ?_, heading⟩
    rw [attachAll, List.flatten_cons, shape, List.cons_append]

/-- Every run of definitions is set off from the text around it. -/
theorem attachAll_runs {ss defs : List (List Node)} (pairs : List.Forall₂ Attachable ss defs)
    (headed : ∀ s ∈ ss.tail, Headed s) {pre run post : List Node}
    (h : DefinitionRun (attachAll ss defs).flatten pre run post) : SetOff pre run post := by
  induction pairs generalizing pre with
  | nil =>
    have empty : pre ++ run ++ post = [] := h.split.symm
    simp only [List.append_eq_nil_iff] at empty
    exact absurd empty.1.2 h.filled
  | @cons s nodes ss defs own later ih =>
    have opening := attachAll_opening later headed
    have edge : ∀ n ∈ (attachAll ss defs).flatten.head?, n.definition? = none := by
      intro n inside
      rcases opening with ⟨-, empty⟩ | ⟨-, m, more, shape, heading⟩
      · rw [empty] at inside
        exact nomatch inside
      · rw [shape] at inside
        obtain rfl := Option.some.inj inside
        exact definition?_of_isHeading heading
    have below {pre : List Node} (h : DefinitionRun (attachAll ss defs).flatten pre run post) : SetOff pre run post :=
      ih (fun s' inside => headed s' (List.mem_of_mem_tail inside)) h
    rw [attachAll, List.flatten_cons] at h
    by_cases empty : nodes = []
    · subst empty
      obtain ⟨more, rfl, rest⟩ := h.skip (own.plain_of_nil ss.isEmpty) edge
      exact (below rest).below_text _
    · obtain ⟨text, n, shape, plain, shown⟩ := own.shape empty ss.isEmpty
      generalize tail : (if ss.isEmpty then [] else [.leaf .blankLine] : List Node) = gap at shape
      rw [shape, List.append_assoc _ gap] at h
      have line : ∀ m ∈ gap, m.definition? = none := by
        intro m inside
        rw [← tail] at inside
        split at inside
        · exact absurd inside List.not_mem_nil
        · rw [List.mem_singleton.mp inside]
          rfl
      have edge' : ∀ m ∈ (gap ++ (attachAll ss defs).flatten).head?, m.definition? = none := by
        intro m inside
        cases gap with
        | nil => exact edge m inside
        | cons k gap =>
          obtain rfl := Option.some.inj inside
          exact line k List.mem_cons_self
      rcases h.cases plain own.all edge' with ⟨rfl, rfl, rfl⟩ | ⟨more, rfl, rest⟩
      · refine ⟨own.sorted, ⟨text, n, rfl, shown⟩, ?_⟩
        rcases opening with ⟨rfl, nothing⟩ | ⟨filled, m, more, next, heading⟩
        · left
          rw [← tail, nothing]
          rfl
        · right
          refine ⟨m, more, ?_, heading⟩
          rw [← tail, next, if_neg (by simpa using filled)]
          rfl
      · obtain ⟨more', rfl, rest'⟩ := rest.skip line edge
        exact ((below rest').below_text _).below_text _

/-- No blank line is left at the end. -/
theorem attachAll_ends {ss defs : List (List Node)} (pairs : List.Forall₂ Attachable ss defs)
    (headed : ∀ s ∈ ss.tail, Headed s) : ∀ n ∈ (attachAll ss defs).flatten.getLast?, n.isBlankLine = false := by
  induction pairs with
  | nil => exact fun n inside => nomatch inside
  | @cons s nodes ss defs own later ih =>
    have below := ih fun s' inside => headed s' (List.mem_of_mem_tail inside)
    intro n inside
    rw [attachAll, List.flatten_cons] at inside
    rcases attachAll_opening later headed with ⟨rfl, nothing⟩ | ⟨-, m, more, next, -⟩
    · rw [nothing, List.append_nil] at inside
      by_cases empty : nodes = []
      · subst empty
        exact getLast?_dropLastBlankLines inside
      · obtain ⟨text, k, shape, -⟩ := own.shape empty true
        have last : n ∈ nodes.getLast? := by
          rw [List.isEmpty_nil, shape, if_pos rfl, List.append_nil, List.getLast?_append,
            List.getLast?_eq_some_getLast empty] at inside
          rw [List.getLast?_eq_some_getLast empty]
          exact inside
        exact not_isBlankLine_of_definition (own.all n (List.mem_of_getLast? last))
    · refine below n ?_
      rw [List.getLast?_append, next, List.getLast?_eq_some_getLast (List.cons_ne_nil m more)] at inside
      rw [next, List.getLast?_eq_some_getLast (List.cons_ne_nil m more)]
      exact inside

theorem dropLastBlankLines_eq_nil {ns : List Node} (empty : dropLastBlankLines ns = []) : ∀ n ∈ ns, n.isBlankLine := by
  obtain ⟨blanks, split, blank⟩ := dropLastBlankLines_append ns
  intro n inside
  rw [split, empty] at inside
  exact blank n inside

/-- A section that shows nothing calls for nothing. -/
theorem shown_of_calls {index : Index} {report : Report} {s : List Node} {d : NewDefinition}
    (called : d ∈ calls index report s) : dropLastBlankLines s ≠ [] := by
  intro empty
  obtain ⟨m, inside, asks⟩ := List.mem_filterMap.mp called
  obtain ⟨n, among, below⟩ := List.mem_flatMap.mp inside
  have blank := dropLastBlankLines_eq_nil empty n among
  cases n with
  | leaf l =>
    obtain ⟨l', rfl⟩ := Node.eq_leaf_of_mem_subnodes_leaf below
    exact nomatch asks
  | definition tag label target => exact absurd blank Bool.false_ne_true
  | branch tag container ns => exact absurd blank Bool.false_ne_true

/-- What is staged can be attached, if definitions with one label have one id. -/
theorem numbered_attachable {index : Index} {report : Report} {ss : List (List Node)}
    (plain : ∀ s ∈ ss, ∀ n ∈ s, n.definition? = none)
    (labels : ∀ s ∈ ss, ∀ d ∈ calls index report s, ∀ e ∈ calls index report s, d.label = e.label → d.id = e.id)
    (placed : List Nat) (fresh : Nat) :
    List.Forall₂ Attachable ss (numbered fresh (staged index report placed ss)) := by
  induction ss generalizing placed fresh with
  | nil => exact List.Forall₂.nil
  | cons s ss ih =>
    rw [staged, numbered]
    refine List.Forall₂.cons ?_ (ih (fun s' among => plain s' (List.mem_cons_of_mem _ among))
      (fun s' among => labels s' (List.mem_cons_of_mem _ among)) _ _)
    have found := chosen index report placed s
    refine ⟨plain s List.mem_cons_self, fun n inside => ?_, definitionNodes_sorted ?_ fresh, fun filled => ?_⟩
    · obtain ⟨d, -, place, rfl⟩ := mem_definitionNodes inside
      exact Option.some_ne_none _
    · refine List.Nodup.map_on (fun d among e among' same => ?_) (List.Nodup.of_map _ found.nodup)
      have own := labels s List.mem_cons_self d (found.called d among).1 e (found.called e among').1 same
      exact List.inj_on_of_nodup_map found.nodup among among' own
    · obtain ⟨n, inside⟩ := List.exists_mem_of_ne_nil _ filled
      obtain ⟨d, among, -⟩ := mem_definitionNodes inside
      exact shown_of_calls (found.called d ((sortByLabel_perm _).mem_iff.mp among)).1

/-! ### The trees below -/

/-- A list without its definitions. Of each run of blank lines the first is left, but a list that held no definition stays
as it is. -/
def clear (ns : List Node) : List Node :=
  if ns.any (·.definition?.isSome) then (ns.filter (·.definition?.isNone)).destutter Spaced else ns

/-- A tree with all lists cleared. -/
def Node.cleared : Node → Node := rebuild fun _ => clear

/-- Whether no link has a definition among its children. -/
def Node.definitionsApart (n : Node) : Bool :=
  n.subnodes.all fun
    | branch _ (.link _ _) ns => ns.all (·.definition?.isNone)
    | _ => true

variable {tree : Node} {fresh : Nat} {index : Index} {o : Outcome} {root : Tag} {ns : List Node}

/-- After the links have been settled, the recorded tags of definitions are those of definitions. -/
theorem carries_settled (document : DocumentTree tree fresh) (all : index.Collected tree.walk) {n : Node}
    (member : n ∈ (tree.retag (settleAll index)).subnodes) :
    n.carries (index.definitions.map (·.tag)) = n.definition?.isSome := by
  rw [Node.subnodes_retag] at member
  obtain ⟨m, old, rfl⟩ := List.mem_map.mp member
  rw [Node.definition?_retag, carries_retag document.distinct all settleAll_place old]

/-- After the links have been settled, the recorded parents of definitions are the nodes with a definition below. -/
theorem parents_settled (document : DocumentTree tree fresh) (all : index.Collected tree.walk)
    (apart : tree.definitionsApart) {t : Tag} {c : Container} {ms : List Node}
    (member : .branch t c ms ∈ (tree.retag (settleAll index)).subnodes) :
    t ∈ index.definitions.filterMap (·.parent.tag?) ↔ ms.any (·.definition?.isSome) := by
  obtain ⟨u, d, ks, old, settled, rfl⟩ := Node.of_mem_retag member
  have place := place_of_settleAll settled
  rw [List.any_map, List.any_eq_true]
  simp only [Function.comp_apply, Node.definition?_retag, Option.isSome_iff_ne_none]
  constructor
  · intro noted
    obtain ⟨c', js, member', r, recorded, m, inside, tagged⟩ := branch_of_parent all noted
    obtain ⟨-, -, rfl⟩ := Node.branch.inj (document.distinct.branch_inj old member' place)
    refine ⟨m, inside, definition_of_place document.distinct all recorded ?_ tagged rfl⟩
    exact Node.mem_subnodes_below old inside (Node.mem_subnodes_self m)
  · rintro ⟨m, inside, definition⟩
    -- No link holds the definition, so its parent has kept its tag.
    have other : d.isLink = false := by
      cases d with
      | link form position =>
        have plain := List.all_eq_true.mp (List.all_eq_true.mp apart _ old) m inside
        exact absurd (Option.isNone_iff_eq_none.mp plain) definition
      | _ => rfl
    rw [settleAll_of_not_isLink document.distinct (document.tracks all) old other] at settled
    obtain ⟨rfl, -⟩ := Prod.mk.inj settled
    exact parent_recorded document all old inside definition

/-- Below the root of the rewritten document, taking the recorded definitions out is to clear all lists. -/
theorem rebuild_cleaned_eq_cleared (document : DocumentTree tree fresh) (all : index.Collected tree.walk)
    (apart : tree.definitionsApart) {kids : List Node}
    (settled : tree.retag (settleAll index) = .branch root .document kids) {n : Node} (inside : n ∈ kids) :
    n.rebuild (cleaned (some root) index.definitions) = n.cleared := by
  have distinct : (tree.retag (settleAll index)).Distinct := document.distinct.retag settleAll_place
  apply Node.mapBranches_congr
  intro t c ms member
  have whole : .branch t c ms ∈ (tree.retag (settleAll index)).subnodes := by
    rw [settled]
    exact Node.mem_subnodes_of_child inside member
  have other : ¬ some root = some t := by
    rintro ⟨⟩
    have top : Node.branch root .document kids ∈ (tree.retag (settleAll index)).subnodes := by
      rw [settled]
      exact Node.mem_subnodes_self _
    exact distinct.not_below top inside member
  have kept : (ms.map Node.cleared).filter (!Node.carries (index.definitions.map (·.tag)) ·) =
      (ms.map Node.cleared).filter (·.definition?.isNone) := by
    refine List.filter_congr fun k among => ?_
    obtain ⟨m, old, rfl⟩ := List.mem_map.mp among
    have within := Node.mem_subnodes_below whole old (Node.mem_subnodes_self m)
    rw [Node.cleared, Node.carries_rebuild, carries_settled document all within, Node.definition?_rebuild,
      Option.not_isSome]
  have parent : t ∈ index.definitions.filterMap (·.parent.tag?) ↔ (ms.map Node.cleared).any (·.definition?.isSome) := by
    rw [parents_settled document all apart whole, List.any_map]
    simp only [Function.comp_def, Node.cleared, Node.definition?_rebuild]
  change Node.branch t c (cleaned (some root) index.definitions t (ms.map Node.cleared)) =
    Node.branch t c (clear (ms.map Node.cleared))
  rw [cleaned, tidied, kept, clear, decide_eq_false other, ← collapseBlankLines_eq_destutter]
  by_cases emptied : t ∈ index.definitions.filterMap (·.parent.tag?)
  · rw [if_pos emptied, if_pos (parent.mp emptied)]
  · -- A list that held no definition has none to lose.
    have plain := fun held => emptied (parent.mpr held)
    rw [if_neg emptied, if_neg plain, List.filter_eq_self.mpr]
    intro k among
    by_contra definition
    exact plain (List.any_eq_true.mpr ⟨k, among, by simpa [Option.isSome_iff_ne_none] using definition⟩)

theorem Node.isContent_cleared (n : Node) : n.cleared.isContent = n.isContent := by
  rw [isContent, isContent, cleared, rebuild_isBlankLine, Node.definition?_rebuild]

/-! ### The document with its definitions placed -/

namespace Transformed

/-- What holds text at the top level of the rewritten document stays there, cleared. -/
theorem content_cleared (t : Transformed tree fresh index tree o root ns) (document : DocumentTree tree fresh)
    (all : index.Collected tree.walk) (apart : tree.definitionsApart) {kids : List Node}
    (settled : tree.retag (settleAll index) = .branch root .document kids) :
    o.forest.document.children.filter Node.isContent = (kids.filter Node.isContent).map Node.cleared := by
  have left := t.left
  rw [settled, Node.rebuild_branch] at left
  obtain ⟨-, -, left⟩ := Node.branch.inj left
  have below : kids.map (Node.rebuild (cleaned (some root) index.definitions)) = kids.map Node.cleared :=
    List.map_congr_left fun n inside => rebuild_cleaned_eq_cleared document all apart settled inside
  rw [t.content, left, below, cleaned, filter_isContent, tidied_flatMap isContent_silent, ← filter_isContent,
    List.filter_filter, List.filter_map]
  congr 1
  refine List.filter_congr fun n inside => ?_
  have within : n ∈ (tree.retag (settleAll index)).subnodes := by
    rw [settled]
    exact Node.mem_subnodes_of_child inside (Node.mem_subnodes_self n)
  rw [Function.comp_apply, Node.isContent_cleared, Node.cleared, Node.carries_rebuild, carries_settled document all within,
    Node.isContent]
  cases n.isBlankLine <;> cases n.definition? <;> rfl

/-- The sections that are left, each with what is staged for it. -/
theorem attachable (t : Transformed tree fresh index tree o root ns) (document : DocumentTree tree fresh)
    (all : index.Collected tree.walk) : List.Forall₂ Attachable (sections ns)
      (numbered fresh (staged o.index (Report.detect index) [] (sections ns))) := by
  refine numbered_attachable (fun s among n inside => (t.section_plain among inside).2) ?_ [] fresh
  rw [t.follows]
  intro s among d called e called' same
  obtain ⟨r, inside, -, target, -, rfl⟩ := (mem_calls document all).mp called
  obtain ⟨r', inside', -, target', -, rfl⟩ := (mem_calls document all).mp called'
  exact (all.id_eq_iff inside inside').mpr same

end Transformed

theorem sections_headed (ns : List Node) : ∀ s ∈ (sections ns).tail, Headed s := by
  obtain ⟨first, rest, parts, cut⟩ := sections_isCut ns
  rw [parts]
  exact cut.headed

/-- A document after definitions have been placed in it. What is neither a blank line nor a definition stays in its order,
with all lists in it cleared; at the end there is no blank line; and all runs of definitions are set off. -/
structure Placed (before after : Node) : Prop where
  root : before.tag? = after.tag?
  content : after.children.filter Node.isContent = (before.children.filter Node.isContent).map Node.cleared
  ends : ∀ n ∈ after.children.getLast?, n.isBlankLine = false
  runs : ∀ pre run post, DefinitionRun after.children pre run post → SetOff pre run post

/-- Placing definitions in a document whose links have been rewritten, if no link has a definition among its children:
nothing but blank lines and definitions goes, comes or moves, and the layout rules hold. -/
theorem placeDefinitions_layout (next : Nat) (tag : Tag) (children : List Node) (converted : Nat) :
    let (tree, fresh) := Node.number next (.branch tag .document children)
    match Index.empty.collect tree with
    | .error _ => tree.collectable = false
    | .ok index => tree.definitionsApart →
      let rewritten := (Rewriting.mk (Forest.ofDocument tree fresh) index converted).run (Report.detect index)
      Placed rewritten.forest.document
        (placeDefinitions rewritten.forest rewritten.index (Report.detect index)).forest.document := by
  have document := documentTree_number next tag children
  generalize Node.number next (.branch tag .document children) = numbered at document
  obtain ⟨tree, fresh⟩ := numbered
  dsimp only at document ⊢
  cases collect : Index.empty.collect tree with
  | error e =>
    rw [← Node.collect_isOk Index.empty, collect]
    rfl
  | ok index =>
    intro apart
    have all := Index.collected collect
    obtain ⟨f, told, o, root, ns, within, done, t⟩ := transform_ok document none collect
    obtain ⟨rfl, rfl⟩ := Prod.mk.inj (Except.ok.inj within)
    change Transformed tree fresh index tree o root ns at t
    -- The run over the document ends with this very step.
    have same : (placeDefinitions (Forest.ofDocument (tree.retag (settleAll index)) fresh)
        (settledIndex (Report.detect index) index) (Report.detect index)).forest = o.forest := by
      obtain ⟨events, done'⟩ := transform_eq collect rfl within (run_settled document all 0)
      rw [Except.ok.inj (done.symm.trans done')]
    rw [run_settled document all converted, same]
    have settled := t.settled_root document all
    have shape : o.forest.document.children = (attachAll (sections ns)
        (numbered fresh (staged o.index (Report.detect index) [] (sections ns)))).flatten := by
      rw [t.document]
      rfl
    have pairs := t.attachable document all
    have top : (tree.retag (settleAll index)).tag? = o.forest.document.tag? := by
      rw [settled, t.document]
      rfl
    refine ⟨top, ?_, ?_, ?_⟩
    · rw [t.content_cleared document all apart settled]
      exact congrArg (fun n => (n.children.filter Node.isContent).map Node.cleared) settled.symm
    · rw [shape]
      exact attachAll_ends pairs (sections_headed ns)
    · rw [shape]
      intro pre run post h
      exact attachAll_runs pairs (sections_headed ns) h

/-- The children of a document with links in two sections, and with definitions among blank lines at its top level and in
a quote. -/
def scatteredDefinitions : List Node :=
  [.leaf .blankLine,
    .fresh .paragraph [.fresh (.link (.inline ⟨"u".toList, none⟩) none) [.leaf (.text "b".toList)]],
    .leaf .blankLine,
    .fresh .quote [.definition ⟨0, 0⟩ "x".toList ⟨"v".toList, none⟩, .leaf .blankLine,
      .definition ⟨0, 0⟩ "y".toList ⟨"w".toList, none⟩, .leaf .blankLine,
      .fresh .paragraph [.fresh (.link (.reference "y".toList .full) none) [.leaf (.text "a".toList)]]],
    .fresh (.heading false 1) [.leaf (.text "h".toList)],
    .definition ⟨0, 0⟩ "z".toList ⟨"u".toList, none⟩,
    .leaf .blankLine,
    .fresh .paragraph [.fresh (.link (.reference "z".toList .shortcut) none) [.leaf (.text "z".toList)]],
    .leaf .blankLine]

theorem scatteredDefinitions_placed : let (tree, fresh) := Node.number 0 (.branch ⟨0, 0⟩ .document scatteredDefinitions)
    ∃ index, Index.empty.collect tree = .ok index ∧ tree.definitionsApart ∧
      let rewritten := (Rewriting.mk (Forest.ofDocument tree fresh) index 0).run (Report.detect index)
      Placed rewritten.forest.document
        (placeDefinitions rewritten.forest rewritten.index (Report.detect index)).forest.document := by
  have placed := placeDefinitions_layout 0 ⟨0, 0⟩ scatteredDefinitions 0
  have checked : (Index.empty.collect (Node.number 0 (.branch ⟨0, 0⟩ .document scatteredDefinitions)).1).toOption.any
      (fun _ => (Node.number 0 (.branch ⟨0, 0⟩ .document scatteredDefinitions)).1.definitionsApart) = true := by
    decide +kernel
  obtain ⟨index, collect, apart⟩ := exists_ok_of_any checked
  dsimp only at placed ⊢
  rw [collect] at placed
  exact ⟨index, collect, apart, placed apart⟩

end MarkdownLinks
