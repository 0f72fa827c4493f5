import Mathlib.Data.List.DropRight
import MarkdownLinks.Proofs.Link.Definitions

/-!
Attaching definitions anew. A section from which definitions have been taken out again, and the blank lines with them,
differs at most in blank lines at its end from what it was, so it becomes what it had been when definitions are
attached to it once more.
-/

namespace MarkdownLinks

/-! ### Blank lines in parts of a list -/

theorem collapseBlankLines_sublist (skip : Bool) (ns : List Node) : (collapseBlankLines skip ns).Sublist ns := by
  induction ns generalizing skip with
  | nil => exact List.Sublist.slnil
  | cons n ns ih =>
    rw [collapseBlankLines]
    split
    · split
      · exact (ih true).cons n
      · exact (ih true).cons_cons n
    · exact (ih false).cons_cons n

/-- Whether a blank line goes right before what follows a list. -/
def endsBlank (skip : Bool) (ns : List Node) : Bool := (ns.getLast?.map Node.isBlankLine).getD skip

theorem collapseBlankLines_append (skip : Bool) (xs ys : List Node) : collapseBlankLines skip (xs ++ ys) =
    collapseBlankLines skip xs ++ collapseBlankLines (endsBlank skip xs) ys := by
  induction xs generalizing skip with
  | nil => rfl
  | cons n xs ih =>
    have last : endsBlank skip (n :: xs) = endsBlank n.isBlankLine xs := by
      unfold endsBlank
      rw [List.getLast?_cons]
      cases xs.getLast? <;> rfl
    rw [List.cons_append, collapseBlankLines, collapseBlankLines, last]
    cases blank : n.isBlankLine <;> cases skip <;> simp [ih]

theorem collapsed_append {skip skip' : Bool} {xs ys : List Node}
    (parts : collapseBlankLines skip xs ++ collapseBlankLines skip' ys = xs ++ ys) :
    collapseBlankLines skip xs = xs ∧ collapseBlankLines skip' ys = ys := by
  have shorter := (collapseBlankLines_sublist skip xs).length_le
  have shorter' := (collapseBlankLines_sublist skip' ys).length_le
  have lengths := congrArg List.length parts
  rw [List.length_append, List.length_append] at lengths
  exact List.append_inj parts (by omega)

theorem collapsed_left {skip : Bool} {xs ys : List Node} (tidy : collapseBlankLines skip (xs ++ ys) = xs ++ ys) :
    collapseBlankLines skip xs = xs := by
  rw [collapseBlankLines_append] at tidy
  exact (collapsed_append tidy).1

theorem Headed.collapse {s : List Node} (headed : Headed s) (skip : Bool) (ns : List Node) :
    collapseBlankLines skip (s ++ ns) = collapseBlankLines true (s ++ ns) := by
  obtain ⟨h, t, rfl, heading, -⟩ := headed
  have shows : h.isBlankLine = false := by
    cases h with
    | leaf l => exact absurd heading Bool.false_ne_true
    | definition tag label target => rfl
    | branch tag container ns => rfl
  simp [collapseBlankLines, shows]

/-- Headings keep blank lines of different sections apart. -/
theorem collapseBlankLines_flatten {rest : List (List Node)} (headed : ∀ s ∈ rest, Headed s) (skip : Bool)
    (first : List Node) : collapseBlankLines skip (first ++ rest.flatten) =
      collapseBlankLines skip first ++ (rest.map (collapseBlankLines true)).flatten := by
  induction rest generalizing skip first with
  | nil => simp
  | cons s rest ih =>
    rw [List.flatten_cons, collapseBlankLines_append, (headed s List.mem_cons_self).collapse,
      ih (fun s' inside => headed s' (List.mem_cons_of_mem _ inside)), List.map_cons, List.flatten_cons]

theorem collapsed_sections {rest : List (List Node)} (headed : ∀ s ∈ rest, Headed s) {skip : Bool} {first : List Node}
    (tidy : collapseBlankLines skip (first ++ rest.flatten) = first ++ rest.flatten) :
    collapseBlankLines skip first = first ∧ ∀ s ∈ rest, collapseBlankLines true s = s := by
  induction rest generalizing skip first with
  | nil => exact ⟨collapsed_left tidy, fun _ inside => nomatch inside⟩
  | cons s rest ih =>
    rw [List.flatten_cons, collapseBlankLines_append] at tidy
    obtain ⟨here, below⟩ := collapsed_append tidy
    rw [(headed s List.mem_cons_self).collapse] at below
    obtain ⟨next, later⟩ := ih (fun s' inside => headed s' (List.mem_cons_of_mem _ inside)) below
    exact ⟨here, List.forall_mem_cons.mpr ⟨next, later⟩⟩

/-! ### One section -/

theorem dropLastBlankLines_twice (ns : List Node) :
    dropLastBlankLines (dropLastBlankLines ns) = dropLastBlankLines ns :=
  List.rdropWhile_idempotent Node.isBlankLine ns

theorem dropLastBlankLines_append_blank {ns blanks : List Node} (blank : ∀ n ∈ blanks, n.isBlankLine) :
    dropLastBlankLines (ns ++ blanks) = dropLastBlankLines ns := by
  unfold dropLastBlankLines
  rw [List.reverse_append, List.dropWhile_append_of_pos fun n inside => blank n (List.mem_reverse.mp inside)]

theorem attach_congr {content content' definitions : List Node} {isLast : Bool}
    (same : dropLastBlankLines content = dropLastBlankLines content') (filled : definitions ≠ []) :
    attach content definitions isLast = attach content' definitions isLast := by
  have nonempty : definitions.isEmpty = false := by simpa using filled
  unfold attach
  rw [nonempty]
  simp only [Bool.not_false, Bool.or_true, if_true, same]

theorem attach_nil_twice (content : List Node) (isLast : Bool) :
    attach (attach content [] isLast) [] isLast = attach content [] isLast := by
  cases isLast with
  | false => rfl
  | true => exact dropLastBlankLines_twice content

/-- A section without its definitions and the blank lines that come to lie together. -/
def stripped (ns : List Node) : List Node := collapseBlankLines true (ns.filter (·.definition?.isNone))

theorem definition?_of_isBlankLine {n : Node} (blank : n.isBlankLine) : n.definition? = none := by
  cases n with
  | leaf l => rfl
  | definition tag label target => exact absurd blank Bool.false_ne_true
  | branch tag container ns => rfl

theorem dropLastBlankLines_stripped {content definitions : List Node} {isLast : Bool}
    (tidy : collapseBlankLines true (attach content definitions isLast) = attach content definitions isLast)
    (plain : ∀ n ∈ content, n.definition? = none) (defs : ∀ n ∈ definitions, n.definition? ≠ none)
    (filled : definitions ≠ []) :
    dropLastBlankLines (stripped (attach content definitions isLast)) = dropLastBlankLines content := by
  obtain ⟨blanks, split, -⟩ := dropLastBlankLines_append content
  obtain ⟨gap, tail, shape, lines⟩ := attach_filled content isLast filled
  rw [shape] at tidy ⊢
  have stays : ∀ ns : List Node, (∀ n ∈ ns, n.definition? = none) → ns.filter (·.definition?.isNone) = ns := by
    intro ns noDefinition
    exact List.filter_eq_self.mpr fun n inside => by rw [noDefinition n inside, Option.isNone_none]
  have kept := stays (dropLastBlankLines content) fun n inside => plain n (split ▸ List.mem_append_left _ inside)
  have before := stays gap fun n inside => definition?_of_isBlankLine (lines n (List.mem_append_left _ inside))
  have behind := stays tail fun n inside => definition?_of_isBlankLine (lines n (List.mem_append_right _ inside))
  have gone : definitions.filter (·.definition?.isNone) = [] :=
    List.filter_eq_nil_iff.mpr fun n inside => by simpa using defs n inside
  rw [stripped, List.filter_append, List.filter_append, List.filter_append, kept, before, behind, gone, List.append_nil,
    collapseBlankLines_append, collapsed_left tidy, dropLastBlankLines_append_blank, dropLastBlankLines_twice]
  exact fun n inside => lines n (mem_of_mem_collapseBlankLines inside)

/-- Attaching definitions where some have been makes the same section. -/
theorem attach_stripped {content definitions definitions' : List Node} {isLast : Bool}
    (tidy : collapseBlankLines true (attach content definitions isLast) = attach content definitions isLast)
    (plain : ∀ n ∈ content, n.definition? = none) (defs : ∀ n ∈ definitions, n.definition? ≠ none)
    (same : definitions' = [] ↔ definitions = []) :
    attach (stripped (attach content definitions isLast)) definitions' isLast = attach content definitions' isLast := by
  by_cases empty : definitions = []
  · obtain rfl := same.mpr empty
    subst empty
    have own : (attach content [] isLast).filter (·.definition?.isNone) = attach content [] isLast := by
      apply List.filter_eq_self.mpr
      intro n inside
      rcases mem_attach inside with old | blank | new
      · rw [plain n old]
        rfl
      · rw [definition?_of_isBlankLine blank]
        rfl
      · exact nomatch new
    rw [stripped, own, tidy, attach_nil_twice]
  · refine attach_congr (dropLastBlankLines_stripped tidy plain defs empty) fun vacant => empty (same.mp vacant)

theorem collapseBlankLines_of_shown {ns : List Node} (shown : ∀ n ∈ ns, n.isBlankLine = false) (skip : Bool) :
    collapseBlankLines skip ns = ns := by
  induction ns generalizing skip with
  | nil => rfl
  | cons n ns ih =>
    have later := ih (fun m inside => shown m (List.mem_cons_of_mem _ inside)) false
    simp [collapseBlankLines, shown n List.mem_cons_self, later]

theorem endsBlank_of_shown {ns : List Node} (filled : ns ≠ []) (shown : ∀ n ∈ ns, n.isBlankLine = false)
    (skip : Bool) : endsBlank skip ns = false := by
  unfold endsBlank
  rw [List.getLast?_eq_some_getLast filled, Option.map_some, Option.getD_some, shown _ (List.getLast_mem filled)]

theorem endsBlank_dropLastBlankLines {ns : List Node} (filled : dropLastBlankLines ns ≠ []) (skip : Bool) :
    endsBlank skip (dropLastBlankLines ns) = false := by
  have shown : ¬ ((dropLastBlankLines ns).getLast filled).isBlankLine :=
    List.rdropWhile_last_not Node.isBlankLine ns filled
  unfold endsBlank
  rw [List.getLast?_eq_some_getLast filled, Option.map_some, Option.getD_some]
  simpa using shown

theorem attach_collapsed {content definitions : List Node} (tidy : collapseBlankLines true content = content)
    (shown : ∀ n ∈ definitions, n.isBlankLine = false) (isLast : Bool) :
    collapseBlankLines true (attach content definitions isLast) = attach content definitions isLast := by
  have kept : collapseBlankLines true (dropLastBlankLines content) = dropLastBlankLines content := by
    obtain ⟨blanks, split, -⟩ := dropLastBlankLines_append content
    rw [split] at tidy
    exact collapsed_left tidy
  by_cases empty : definitions = []
  · subst empty
    cases isLast with
    | false => exact tidy
    | true => exact kept
  · have nonempty : definitions.isEmpty = false := by simpa using empty
    have tail : ∀ skip, collapseBlankLines skip (definitions ++ if isLast then [] else [.leaf .blankLine]) =
        definitions ++ if isLast then [] else [.leaf .blankLine] := by
      intro skip
      rw [collapseBlankLines_append, collapseBlankLines_of_shown shown, endsBlank_of_shown empty shown]
      cases isLast <;> rfl
    have line : collapseBlankLines false [.leaf .blankLine] = [.leaf .blankLine] := rfl
    by_cases vacant : dropLastBlankLines content = []
    · have shape : attach content definitions isLast = definitions ++ if isLast then [] else [.leaf .blankLine] := by
        simp [attach, nonempty, vacant]
      rw [shape, tail]
    · have shape : attach content definitions isLast = dropLastBlankLines content ++
          ([.leaf .blankLine] ++ (definitions ++ if isLast then [] else [.leaf .blankLine])) := by
        simp [attach, nonempty, vacant]
      rw [shape, collapseBlankLines_append, kept, endsBlank_dropLastBlankLines vacant, collapseBlankLines_append, line, tail]

theorem stripped_flatMap {β : Type} {f : Node → List β} (silent : ∀ n, n.isBlankLine → f n = [])
    {content definitions : List Node} (plain : ∀ n ∈ content, n.definition? = none)
    (defs : ∀ n ∈ definitions, n.definition? ≠ none) (isLast : Bool) :
    (stripped (attach content definitions isLast)).flatMap f = content.flatMap f := by
  rw [stripped, collapseBlankLines_flatMap silent, Node.flatMap_filter,
    attach_flatMap fun n blank => by rw [silent n blank, ite_self]]
  have old : content.flatMap (fun n => if n.definition?.isNone then f n else []) = content.flatMap f :=
    List.flatMap_congr fun n inside => by rw [plain n inside, Option.isNone_none, if_pos rfl]
  have new : definitions.flatMap (fun n => if n.definition?.isNone then f n else []) = [] :=
    List.flatMap_eq_nil_iff.mpr fun n inside => if_neg (by simpa using defs n inside)
  rw [old, new, List.append_nil]

/-! ### All sections -/

theorem attachAll_map {γ : Type} {f g : List Node → γ} {ss defs : List (List Node)} (same : defs.length = ss.length)
    (agree : ∀ s ∈ ss, ∀ nodes ∈ defs, ∀ isLast, f (attach s nodes isLast) = g s) :
    (attachAll ss defs).map f = ss.map g := by
  induction ss generalizing defs with
  | nil => rfl
  | cons s ss ih =>
    cases defs with
    | nil => simp at same
    | cons nodes defs =>
      have later := ih (by simpa using same) fun s' among nodes' among' =>
        agree s' (List.mem_cons_of_mem _ among) nodes' (List.mem_cons_of_mem _ among')
      rw [attachAll, List.map_cons, later, agree s List.mem_cons_self nodes List.mem_cons_self, List.map_cons]

theorem attachAll_stripped {ss defs defs' : List (List Node)} (same : defs.length = ss.length)
    (pattern : defs'.map List.isEmpty = defs.map List.isEmpty)
    (tidy : ∀ s ∈ attachAll ss defs, collapseBlankLines true s = s) (plain : ∀ s ∈ ss, ∀ n ∈ s, n.definition? = none)
    (attached : ∀ nodes ∈ defs, ∀ n ∈ nodes, n.definition? ≠ none) :
    attachAll ((attachAll ss defs).map stripped) defs' = attachAll ss defs' := by
  induction ss generalizing defs defs' with
  | nil => rfl
  | cons s ss ih =>
    cases defs with
    | nil => simp at same
    | cons nodes defs =>
      cases defs' with
      | nil => simp at pattern
      | cons nodes' defs' =>
        simp only [List.map_cons, List.cons.injEq] at pattern
        have lengths : defs.length = ss.length := by simpa using same
        rw [attachAll] at tidy ⊢
        obtain ⟨here, below⟩ := List.forall_mem_cons.mp tidy
        have last : ((attachAll ss defs).map stripped).isEmpty = ss.isEmpty := by
          cases ss with
          | nil => rfl
          | cons s' ss =>
            cases defs with
            | nil => simp at lengths
            | cons nodes₂ defs => rfl
        have empty : nodes' = [] ↔ nodes = [] := by
          rw [← List.isEmpty_iff, pattern.1, List.isEmpty_iff]
        rw [List.map_cons, attachAll, attachAll, last,
          attach_stripped here (plain s List.mem_cons_self) (attached nodes List.mem_cons_self) empty,
          ih lengths pattern.2 below (fun s' among => plain s' (List.mem_cons_of_mem _ among))
            fun nodes₂ among => attached nodes₂ (List.mem_cons_of_mem _ among)]

theorem attachAll_twice {ss defs defs' : List (List Node)} (same : defs.length = ss.length)
    (same' : defs'.length = ss.length) (empty : ∀ nodes ∈ defs, nodes = []) (empty' : ∀ nodes ∈ defs', nodes = []) :
    attachAll (attachAll ss defs) defs' = attachAll ss defs' := by
  induction ss generalizing defs defs' with
  | nil => rfl
  | cons s ss ih =>
    cases defs with
    | nil => simp at same
    | cons nodes defs =>
      cases defs' with
      | nil => simp at same'
      | cons nodes' defs' =>
        obtain ⟨rfl, later⟩ := List.forall_mem_cons.mp empty
        obtain ⟨rfl, later'⟩ := List.forall_mem_cons.mp empty'
        have lengths : defs.length = ss.length := by simpa using same
        have last : (attachAll ss defs).isEmpty = ss.isEmpty := by
          have count := attachAll_length lengths
          cases ss <;> cases all : attachAll _ defs <;> simp [all] at count ⊢
        rw [attachAll, attachAll, attachAll, last, attach_nil_twice, ih lengths (by simpa using same') later later']

theorem mem_collapseBlankLines {ns : List Node} {n : Node} (inside : n ∈ ns) (shown : n.isBlankLine = false)
    (skip : Bool) : n ∈ collapseBlankLines skip ns := by
  have all := collapseBlankLines_flatMap (f := fun m => if m.isBlankLine then [] else [m])
    (fun m blank => if_pos blank) skip ns
  have member : n ∈ ns.flatMap fun m => if m.isBlankLine then [] else [m] :=
    List.mem_flatMap.mpr ⟨n, inside, by simp [shown]⟩
  rw [← all] at member
  obtain ⟨m, among, same⟩ := List.mem_flatMap.mp member
  split at same
  · exact nomatch same
  · rwa [List.mem_singleton.mp same]

theorem mem_stripped {ns : List Node} {n : Node} (inside : n ∈ ns) (shown : n.isBlankLine = false)
    (plain : n.definition? = none) : n ∈ stripped ns :=
  mem_collapseBlankLines (List.mem_filter.mpr ⟨inside, by rw [plain, Option.isNone_none]⟩) shown true

theorem stripped_sublist (ns : List Node) : (stripped ns).Sublist ns :=
  (collapseBlankLines_sublist _ _).trans List.filter_sublist

theorem Headed.filter {s : List Node} (headed : Headed s) : Headed (s.filter (·.definition?.isNone)) := by
  obtain ⟨h, t, rfl, heading, plain⟩ := headed
  have kept : h.definition?.isNone := by
    cases h with
    | leaf l => rfl
    | definition tag label target => exact absurd heading Bool.false_ne_true
    | branch tag container ns => rfl
  exact ⟨h, _, List.filter_cons_of_pos kept, heading, fun n inside => plain n (List.mem_filter.mp inside).1⟩

theorem Headed.collapsed {s : List Node} (headed : Headed s) : Headed (collapseBlankLines true s) := by
  obtain ⟨h, t, rfl, heading, plain⟩ := headed
  have shows : h.isBlankLine = false := by
    cases h with
    | leaf l => exact absurd heading Bool.false_ne_true
    | definition tag label target => rfl
    | branch tag container ns => rfl
  refine ⟨h, collapseBlankLines false t, by simp [collapseBlankLines, shows], heading, fun n inside => ?_⟩
  exact plain n (mem_of_mem_collapseBlankLines inside)

/-- Taking definitions out again keeps the cut, unless nothing is left of the first section. -/
theorem IsCut.stripped {first : List Node} {rest : List (List Node)} (cut : IsCut first rest)
    (filled : rest ≠ [] → MarkdownLinks.stripped first ≠ []) :
    MarkdownLinks.sections (MarkdownLinks.stripped (first :: rest).flatten) = (first :: rest).map MarkdownLinks.stripped := by
  have headed : ∀ s ∈ rest.map (List.filter (·.definition?.isNone)), Headed s := by
    intro s inside
    obtain ⟨s', among, rfl⟩ := List.mem_map.mp inside
    exact (cut.headed s' among).filter
  have parts : MarkdownLinks.stripped (first :: rest).flatten = ((first :: rest).map MarkdownLinks.stripped).flatten := by
    unfold MarkdownLinks.stripped
    rw [List.flatten_cons, List.filter_append, List.filter_flatten, collapseBlankLines_flatten headed, List.map_cons,
      List.flatten_cons, List.map_map]
    rfl
  rw [parts, List.map_cons]
  refine IsCut.sections ⟨fun n inside => ?_, fun empty => ?_, fun s inside => ?_⟩
  · exact cut.opening n ((stripped_sublist first).tail.subset inside)
  · by_contra other
    exact filled (fun vacant => other (by rw [vacant]; rfl)) empty
  · obtain ⟨s', among, rfl⟩ := List.mem_map.mp inside
    exact (cut.headed s' among).filter.collapsed

theorem attachAll_collapsed {first : List Node} {rest : List (List Node)} (cut : IsCut first rest)
    {defs : List (List Node)} (same : defs.length = (first :: rest).length)
    (plain : ∀ nodes ∈ defs, ∀ n ∈ nodes, n.isHeading = false) (shown : ∀ nodes ∈ defs, ∀ n ∈ nodes, n.isBlankLine = false)
    (tidy : collapseBlankLines true (first :: rest).flatten = (first :: rest).flatten) :
    collapseBlankLines true (attachAll (first :: rest) defs).flatten = (attachAll (first :: rest) defs).flatten := by
  have each : ∀ s ∈ first :: rest, collapseBlankLines true s = s :=
    List.forall_mem_cons.mpr (collapsed_sections cut.headed tidy)
  obtain ⟨first', rest', parts, cut'⟩ := attachAll_isCut cut same plain
  have tidied : ∀ s ∈ first' :: rest', collapseBlankLines true s = s := by
    rw [← parts]
    intro s inside
    obtain ⟨i, slot⟩ := List.mem_iff_getElem?.mp inside
    obtain ⟨content, nodes, isLast, old, new, rfl⟩ := attachAll_getElem? slot
    exact attach_collapsed (each content (List.mem_of_getElem? old)) (shown nodes (List.mem_of_getElem? new)) isLast
  rw [parts, List.flatten_cons, collapseBlankLines_flatten cut'.headed, tidied first' List.mem_cons_self,
    List.map_congr_left fun s inside => tidied s (List.mem_cons_of_mem _ inside), List.map_id']

end MarkdownLinks
