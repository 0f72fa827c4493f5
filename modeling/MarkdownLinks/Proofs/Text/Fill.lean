import Mathlib.Data.List.Chain
import MarkdownLinks.Proofs.Text.Words

/-!
Filled lines. `Filled` says what greedy filling is without telling how it is done, and there is exactly one way to put
words on lines so.
-/

namespace MarkdownLinks.Text

/-- How long a line is with single spaces between its words. -/
def extent (line : List Text) : Nat := (joinWith [' '] line).length

@[simp] theorem extent_singleton (w : Text) : extent [w] = w.length := rfl

theorem extent_concat {line : List Text} (filled : line ≠ []) (w : Text) :
    extent (line ++ [w]) = extent line + 1 + w.length := by
  induction line with
  | nil => exact absurd rfl filled
  | cons v vs ih =>
    cases vs with
    | nil =>
      simp only [extent, List.cons_append, List.nil_append, joinWith_cons, joinWith, List.length_append,
        List.length_singleton]
    | cons u us =>
      have rest := ih (List.cons_ne_nil u us)
      simp only [extent, List.cons_append, joinWith_cons, List.length_append, List.length_singleton] at rest ⊢
      omega

theorem extent_le_append {line : List Text} (shown : line ≠ []) (ws : List Text) : extent line ≤ extent (line ++ ws) := by
  induction ws generalizing line with
  | nil => rw [List.append_nil]
  | cons w ws ih =>
    calc
      extent line ≤ extent (line ++ [w]) := by rw [extent_concat shown]; omega
      _ ≤ extent (line ++ [w] ++ ws) := ih (by simp)
      _ = extent (line ++ w :: ws) := by rw [List.append_assoc, List.singleton_append]

/-- Lines of words, none too long unless for a single word, and none with room for the word behind it. -/
structure Filled (width : Nat) (words : List Text) (lines : List (List Text)) : Prop where
  all : lines.flatten = words
  shown : ∀ line ∈ lines, line ≠ []
  fits : ∀ line ∈ lines, line.length = 1 ∨ extent line ≤ width
  greedy : lines.IsChain fun line next => ∀ w ∈ next.head?, width < extent (line ++ [w])

namespace Filled

variable {width : Nat} {line ws : List Text} {lines : List (List Text)}

theorem nil : Filled width [] [] :=
  ⟨rfl, fun _ absent => absurd absent List.not_mem_nil, fun _ absent => absurd absent List.not_mem_nil, .nil⟩

/-- The next word is the first one of the next line. -/
theorem head?_eq (filled : Filled width ws lines) : lines.head?.bind List.head? = ws.head? := by
  cases lines with
  | nil =>
    rw [← filled.all]
    rfl
  | cons next lines =>
    obtain ⟨w, rest, rfl⟩ := List.exists_cons_of_ne_nil (filled.shown next List.mem_cons_self)
    rw [← filled.all]
    rfl

theorem cons (filled : Filled width ws lines) (shown : line ≠ []) (fits : line.length = 1 ∨ extent line ≤ width)
    (full : ∀ w ∈ ws.head?, width < extent (line ++ [w])) : Filled width (line ++ ws) (line :: lines) := by
  refine ⟨?_, List.forall_mem_cons.mpr ⟨shown, filled.shown⟩, List.forall_mem_cons.mpr ⟨fits, filled.fits⟩, ?_⟩
  · rw [List.flatten_cons, filled.all]
  · refine List.isChain_cons.mpr ⟨fun next first w leads => full w ?_, filled.greedy⟩
    rw [← filled.head?_eq, Option.mem_def.mp first]
    exact leads

theorem tail (filled : Filled width ws (line :: lines)) : ∃ rest, ws = line ++ rest ∧ Filled width rest lines :=
  ⟨lines.flatten, filled.all.symm, rfl, fun l inside => filled.shown l (List.mem_cons_of_mem _ inside),
    fun l inside => filled.fits l (List.mem_cons_of_mem _ inside), filled.greedy.tail⟩

/-- A first line cannot stop before another one does. -/
theorem not_shorter {line' : List Text} {lines' : List (List Text)} (filled : Filled width ws (line :: lines))
    (filled' : Filled width ws (line' :: lines')) : ¬line.length < line'.length := by
  intro shorter
  obtain ⟨rest, rfl, later⟩ := filled.tail
  obtain ⟨rest', same, -⟩ := filled'.tail
  obtain ⟨more, rfl⟩ : line <+: line' :=
    List.prefix_of_prefix_length_le ⟨rest, rfl⟩ ⟨rest', same.symm⟩ shorter.le
  obtain ⟨w, more, rfl⟩ := List.exists_cons_of_ne_nil fun alone : more = [] => by simp [alone] at shorter
  rw [List.append_assoc, List.cons_append, List.append_cancel_left_eq] at same
  have shown := filled.shown line List.mem_cons_self
  have full : width < extent (line ++ [w]) := by
    have leads := later.head?_eq
    rw [same, List.head?_cons] at leads
    obtain ⟨next, first, leads⟩ := Option.bind_eq_some_iff.mp leads
    exact (List.isChain_cons.mp filled.greedy).1 next first w leads
  have fits : extent (line ++ w :: more) ≤ width := by
    refine (filled'.fits _ List.mem_cons_self).resolve_left ?_
    have longer := List.length_pos_of_ne_nil shown
    simp only [List.length_append, List.length_cons]
    omega
  have longer : extent (line ++ [w]) ≤ extent (line ++ [w] ++ more) := extent_le_append (by simp) more
  rw [List.append_assoc, List.singleton_append] at longer
  omega

theorem unique {lines' : List (List Text)} (filled : Filled width ws lines) (filled' : Filled width ws lines') :
    lines = lines' := by
  induction lines generalizing ws lines' with
  | nil =>
    have exhausted : ws = [] := filled.all.symm
    have blank := List.flatten_eq_nil_iff.mp (filled'.all.trans exhausted)
    cases lines' with
    | nil => rfl
    | cons line' lines' => exact absurd (blank line' List.mem_cons_self) (filled'.shown line' List.mem_cons_self)
  | cons line lines ih =>
    cases lines' with
    | nil =>
      have blank := List.flatten_eq_nil_iff.mp (filled.all.trans (filled'.all.symm : ws = []))
      exact absurd (blank line List.mem_cons_self) (filled.shown line List.mem_cons_self)
    | cons line' lines' =>
      have length := Nat.le_antisymm (Nat.not_lt.mp (filled'.not_shorter filled)) (Nat.not_lt.mp (filled.not_shorter filled'))
      obtain ⟨rest, rfl, later⟩ := filled.tail
      obtain ⟨rest', same, later'⟩ := filled'.tail
      obtain ⟨rfl, rfl⟩ := List.append_inj same length
      rw [ih later later']

/-- One line is enough only for a single word or for words that fit. -/
theorem one_line (filled : Filled width ws lines) (few : lines.length < 2) : ws.length < 2 ∨ extent ws ≤ width := by
  rcases lines with _ | ⟨line, _ | ⟨next, lines⟩⟩
  · left
    rw [← filled.all, List.flatten_nil, List.length_nil]
    exact Nat.zero_lt_two
  · have all := filled.all
    rw [List.flatten_cons, List.flatten_nil, List.append_nil] at all
    rw [← all]
    exact (filled.fits line List.mem_cons_self).imp_left fun single => by omega
  · simp only [List.length_cons] at few
    omega

end Filled

theorem filled_go (width : Nat) {line : List Text} (shown : line ≠ [])
    (fits : line.length = 1 ∨ extent line.reverse ≤ width) (ws : List Text) :
    Filled width (line.reverse ++ ws) (fillLines.go width line (extent line.reverse) ws) := by
  have shown' : line.reverse ≠ [] := by simpa using shown
  induction ws generalizing line with
  | nil =>
    have nothing : Filled width [] [] := .nil
    exact nothing.cons shown' (by simpa using fits) fun w first => nomatch first
  | cons w ws ih =>
    have longer : extent (w :: line).reverse = extent line.reverse + 1 + w.length := by
      rw [List.reverse_cons, extent_concat shown']
    rw [fillLines.go]
    split
    · rename_i room
      have next := ih (List.cons_ne_nil w line) (Or.inr (longer ▸ room)) (by simp)
      rw [longer] at next
      simpa using next
    · rename_i full
      refine (ih (List.cons_ne_nil w []) (Or.inl rfl) (by simp)).cons shown' (by simpa using fits) fun v first => ?_
      obtain rfl : w = v := Option.some.inj first
      rw [extent_concat shown']
      omega

theorem filled (width : Nat) (ws : List Text) : Filled width ws (fillLines width ws) := by
  cases ws with
  | nil => exact .nil
  | cons w ws => exact filled_go width (List.cons_ne_nil w []) (Or.inl rfl) ws

/-- A line of words holds no whitespace but the spaces between them. -/
theorem of_mem_joinWith_space {ws : List Text} (solid : ∀ w ∈ ws, Solid w) {c : Char} (inside : c ∈ joinWith [' '] ws) :
    c = ' ' ∨ isWhitespace c = false := by
  induction ws with
  | nil => exact absurd inside List.not_mem_nil
  | cons w ws ih =>
    have first := (solid w List.mem_cons_self).2
    cases ws with
    | nil => exact Or.inr (first c inside)
    | cons v ws =>
      rw [joinWith_cons, List.append_assoc, List.mem_append, List.mem_append, List.mem_singleton] at inside
      rcases inside with own | space | later
      · exact Or.inr (first c own)
      · exact Or.inl space
      · exact ih (fun u member => solid u (List.mem_cons_of_mem w member)) later

/-- Lines are filled greedily in one way only. -/
theorem filled_iff {width : Nat} {ws : List Text} {lines : List (List Text)} :
    Filled width ws lines ↔ lines = fillLines width ws := by
  constructor
  · exact fun other => other.unique (filled width ws)
  · rintro rfl
    exact filled width ws

end MarkdownLinks.Text
