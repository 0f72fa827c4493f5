import Mathlib.Data.List.TakeWhile
import MarkdownLinks.Proofs.Link.Remove

/-!
The sections of a list of nodes. Cutting a list at its headings loses nothing, and a list of sections that are cut
in the right way is found again in what they make up together. Attaching definitions keeps sections cut that way.
-/

namespace MarkdownLinks

/-- No node of a section but its first is a heading. -/
def Section (s : List Node) : Prop := ∀ n ∈ s.tail, n.isHeading = false

/-- A section that a heading opens. -/
def Headed (s : List Node) : Prop := ∃ h t, s = h :: t ∧ h.isHeading ∧ ∀ n ∈ t, n.isHeading = false

/-- How a list is cut: a first section, empty only if nothing follows, and then sections opened by headings. -/
structure IsCut (first : List Node) (rest : List (List Node)) : Prop where
  opening : Section first
  empty : first = [] → rest = []
  headed : ∀ s ∈ rest, Headed s

theorem Headed.section {s : List Node} (headed : Headed s) : Section s := by
  obtain ⟨h, t, rfl, -, plain⟩ := headed
  exact plain

theorem sections_go_flatten (current ns : List Node) :
    (sections.go current ns).flatten = current.reverse ++ ns := by
  induction ns generalizing current with
  | nil => simp [sections.go]
  | cons n ns ih =>
    rw [sections.go]
    split
    · rw [List.flatten_cons, ih]
      simp
    · rw [ih]
      simp

theorem sections_flatten (ns : List Node) : (sections ns).flatten = ns := sections_go_flatten [] ns

theorem sections_go_isCut (current ns : List Node) (plain : Section current.reverse) :
    ∃ more rest, sections.go current ns = (current.reverse ++ more) :: rest ∧ IsCut (current.reverse ++ more) rest := by
  induction ns generalizing current with
  | nil =>
    refine ⟨[], [], by simp [sections.go], ?_, fun _ => rfl, fun _ h => nomatch h⟩
    rwa [List.append_nil]
  | cons n ns ih =>
    rw [sections.go]
    split
    · rename_i opens
      obtain ⟨heading, filled⟩ : n.isHeading ∧ current ≠ [] := by simpa using opens
      obtain ⟨more, rest, same, cut⟩ := ih [n] fun m inside => nomatch inside
      refine ⟨[], _, by rw [List.append_nil, same], ?_, fun empty => ?_, ?_⟩
      · rwa [List.append_nil]
      · rw [List.append_nil, List.reverse_eq_nil_iff] at empty
        exact absurd empty filled
      · intro s inside
        rcases List.mem_cons.mp inside with rfl | inside
        · exact ⟨n, more, rfl, heading, cut.opening⟩
        · exact cut.headed s inside
    · rename_i stays
      have plain' : Section (n :: current).reverse := by
        rw [List.reverse_cons]
        cases shape : current.reverse with
        | nil => exact fun m inside => nomatch inside
        | cons h t =>
          rw [shape] at plain
          intro m inside
          rcases List.mem_append.mp inside with old | new
          · exact plain m old
          · obtain rfl := List.mem_singleton.mp new
            have filled : current ≠ [] := fun empty => by simp [empty] at shape
            simpa [filled] using stays
      obtain ⟨more, rest, same, cut⟩ := ih (n :: current) plain'
      rw [List.reverse_cons, List.append_assoc, List.singleton_append] at same cut
      exact ⟨n :: more, rest, same, cut⟩

/-- Lists are cut at their headings. -/
theorem sections_isCut (ns : List Node) : ∃ first rest, sections ns = first :: rest ∧ IsCut first rest := by
  obtain ⟨more, rest, same, cut⟩ := sections_go_isCut [] ns fun _ h => nomatch h
  exact ⟨more, rest, same, cut⟩

theorem sections_go_append {current t : List Node} (plain : ∀ n ∈ t, n.isHeading = false) (ns : List Node) :
    sections.go current (t ++ ns) = sections.go (t.reverse ++ current) ns := by
  induction t generalizing current with
  | nil => rfl
  | cons n t ih =>
    rw [List.cons_append, sections.go, plain n List.mem_cons_self]
    simp only [Bool.false_and, Bool.false_eq_true, if_false]
    rw [ih fun m inside => plain m (List.mem_cons_of_mem _ inside)]
    simp

theorem sections_go_headed {current : List Node} (filled : current ≠ []) {rest : List (List Node)}
    (headed : ∀ s ∈ rest, Headed s) : sections.go current rest.flatten = current.reverse :: rest := by
  induction rest generalizing current with
  | nil => rfl
  | cons s rest ih =>
    obtain ⟨h, t, rfl, heading, plain⟩ := headed s List.mem_cons_self
    rw [List.flatten_cons, List.cons_append, sections.go, heading]
    simp only [List.isEmpty_eq_false_iff.mpr filled, Bool.not_false, Bool.and_self, if_true]
    rw [sections_go_append plain, ih (by simp) fun s inside => headed s (List.mem_cons_of_mem _ inside)]
    simp

/-- There is one way to cut a list. -/
theorem IsCut.sections {first : List Node} {rest : List (List Node)} (cut : IsCut first rest) :
    sections (first :: rest).flatten = first :: rest := by
  cases first with
  | nil =>
    rw [cut.empty rfl]
    rfl
  | cons n t =>
    have filled : t.reverse ++ [n] ≠ [] := by simp
    rw [List.flatten_cons, List.cons_append, MarkdownLinks.sections, sections.go]
    simp only [List.isEmpty_nil, Bool.not_true, Bool.and_false, Bool.false_eq_true, if_false]
    rw [sections_go_append (t := t) cut.opening, sections_go_headed filled cut.headed]
    simp

/-! ### Attaching -/

theorem dropLastBlankLines_append (ns : List Node) :
    ∃ blanks, ns = dropLastBlankLines ns ++ blanks ∧ ∀ n ∈ blanks, n.isBlankLine := by
  refine ⟨(ns.reverse.takeWhile Node.isBlankLine).reverse, ?_, fun n inside => ?_⟩
  · rw [dropLastBlankLines, ← List.reverse_append, List.takeWhile_append_dropWhile, List.reverse_reverse]
  · exact List.mem_takeWhile_imp (List.mem_reverse.mp inside)

theorem attach_filled (content : List Node) {definitions : List Node} (isLast : Bool) (filled : definitions ≠ []) :
    ∃ gap tail, attach content definitions isLast = dropLastBlankLines content ++ (gap ++ definitions ++ tail) ∧
      ∀ n ∈ gap ++ tail, n.isBlankLine := by
  have lines : ∀ b : Bool, ∀ n ∈ (if b then [] else [.leaf .blankLine] : List Node), n.isBlankLine := by
    intro b n inside
    cases b
    · obtain rfl := List.mem_singleton.mp inside
      rfl
    · exact nomatch inside
  have nonempty : definitions.isEmpty = false := by simpa using filled
  refine ⟨if (dropLastBlankLines content).isEmpty then [] else [.leaf .blankLine],
    if isLast then [] else [.leaf .blankLine], by simp [attach, nonempty], fun n inside => ?_⟩
  exact (List.mem_append.mp inside).elim (lines _ n) (lines _ n)

/-- What a section becomes: its nodes but for blank lines at the end, and the definitions among blank lines. -/
theorem attach_shape (content definitions : List Node) (isLast : Bool) : ∃ kept blanks gap tail,
    content = kept ++ blanks ∧ attach content definitions isLast = kept ++ (gap ++ definitions ++ tail) ∧
      ∀ n ∈ blanks ++ gap ++ tail, n.isBlankLine := by
  obtain ⟨blanks, same, blank⟩ := dropLastBlankLines_append content
  by_cases empty : definitions = []
  · subst empty
    cases isLast with
    | true => exact ⟨dropLastBlankLines content, blanks, [], [], same, by simp [attach], by simpa using blank⟩
    | false => exact ⟨content, [], [], [], by simp, by simp [attach], by simp⟩
  · obtain ⟨gap, tail, shape, lines⟩ := attach_filled content isLast empty
    refine ⟨dropLastBlankLines content, blanks, gap, tail, same, shape, fun n inside => ?_⟩
    rw [List.append_assoc] at inside
    exact (List.mem_append.mp inside).elim (blank n) (lines n)

theorem attach_ne_nil {content : List Node} (definitions : List Node) (filled : content ≠ []) :
    attach content definitions false ≠ [] := by
  unfold attach
  cases definitions <;> simp [filled]

theorem isHeading_of_isBlankLine {n : Node} (blank : n.isBlankLine) : n.isHeading = false := by
  cases n with
  | leaf l => rfl
  | definition tag label target => rfl
  | branch tag container ns => exact absurd blank Bool.false_ne_true

theorem attach_flatMap {β : Type} {f : Node → List β} (silent : ∀ n, n.isBlankLine → f n = [])
    (content definitions : List Node) (isLast : Bool) :
    (attach content definitions isLast).flatMap f = content.flatMap f ++ definitions.flatMap f := by
  obtain ⟨kept, blanks, gap, tail, same, shape, blank⟩ := attach_shape content definitions isLast
  have nothing : ∀ ns : List Node, (∀ n ∈ ns, n.isBlankLine) → ns.flatMap f = [] := by
    intro ns blank
    exact List.flatMap_eq_nil_iff.mpr fun n inside => silent n (blank n inside)
  simp only [List.forall_mem_append] at blank
  rw [shape, same]
  simp only [List.flatMap_append, nothing _ blank.1.1, nothing _ blank.1.2, nothing _ blank.2, List.append_nil,
    List.nil_append]

theorem mem_attach {content definitions : List Node} {isLast : Bool} {n : Node}
    (inside : n ∈ attach content definitions isLast) : n ∈ content ∨ n.isBlankLine ∨ n ∈ definitions := by
  obtain ⟨kept, blanks, gap, tail, same, shape, blank⟩ := attach_shape content definitions isLast
  simp only [List.forall_mem_append] at blank
  rw [shape] at inside
  simp only [List.mem_append] at inside
  rcases inside with inside | (inside | inside) | inside
  · exact Or.inl (same ▸ List.mem_append_left _ inside)
  · exact Or.inr (Or.inl (blank.1.2 n inside))
  · exact Or.inr (Or.inr inside)
  · exact Or.inr (Or.inl (blank.2 n inside))

theorem mem_attach_of_mem {content definitions : List Node} {isLast : Bool} {n : Node} (inside : n ∈ content)
    (shows : n.isBlankLine = false) : n ∈ attach content definitions isLast := by
  obtain ⟨kept, blanks, gap, tail, same, shape, blank⟩ := attach_shape content definitions isLast
  simp only [List.forall_mem_append] at blank
  rw [same] at inside
  rw [shape]
  rcases List.mem_append.mp inside with stays | goes
  · exact List.mem_append_left _ stays
  · rw [blank.1.1 n goes] at shows
    exact absurd shows.symm Bool.false_ne_true

theorem Headed.attach {content definitions : List Node} (headed : Headed content)
    (plain : ∀ n ∈ definitions, n.isHeading = false) (isLast : Bool) :
    Headed (MarkdownLinks.attach content definitions isLast) := by
  obtain ⟨h, t, rfl, heading, rest⟩ := headed
  obtain ⟨kept, blanks, gap, tail, same, shape, blank⟩ := attach_shape (h :: t) definitions isLast
  simp only [List.forall_mem_append] at blank
  cases kept with
  | nil =>
    rw [List.nil_append] at same
    have first := blank.1.1 h (by rw [← same]; exact List.mem_cons_self)
    rw [isHeading_of_isBlankLine first] at heading
    exact absurd heading Bool.false_ne_true
  | cons k kept =>
    obtain ⟨rfl, rfl⟩ := List.cons.inj same
    refine ⟨h, kept ++ (gap ++ definitions ++ tail), shape, heading, ?_⟩
    simp only [List.forall_mem_append]
    exact ⟨fun n inside => rest n (List.mem_append_left _ inside),
      ⟨fun n inside => isHeading_of_isBlankLine (blank.1.2 n inside), plain⟩,
      fun n inside => isHeading_of_isBlankLine (blank.2 n inside)⟩

theorem Section.attach {content definitions : List Node} (opening : Section content)
    (plain : ∀ n ∈ definitions, n.isHeading = false) (isLast : Bool) :
    Section (MarkdownLinks.attach content definitions isLast) := by
  obtain ⟨kept, blanks, gap, tail, same, shape, blank⟩ := attach_shape content definitions isLast
  simp only [List.forall_mem_append] at blank
  have later : ∀ n ∈ gap ++ definitions ++ tail, n.isHeading = false := by
    simp only [List.forall_mem_append]
    exact ⟨⟨fun n inside => isHeading_of_isBlankLine (blank.1.2 n inside), plain⟩,
      fun n inside => isHeading_of_isBlankLine (blank.2 n inside)⟩
  rw [shape]
  cases kept with
  | nil => exact fun n inside => later n (List.mem_of_mem_tail inside)
  | cons k kept =>
    subst same
    intro n inside
    rcases List.mem_append.mp inside with old | new
    · exact opening n (List.mem_append_left _ old)
    · exact later n new

end MarkdownLinks
