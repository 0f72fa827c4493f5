import Mathlib.Data.List.Count
import Mathlib.Data.List.GetD
import Mathlib.Data.Prod.Lex
import MarkdownLinks.Position

/-!
Points are exact. Halving an ascending table finds how many lines start at or before an offset; in the table of a text
these are one more than the line feeds before it, so that the line and the column of an offset lead back to it, and points
stand in the order of the offsets.
-/

namespace MarkdownLinks

/-- In an ascending table the entries up to an offset come first. -/
theorem getElem_le_iff_lt_countP {α : Type} [LinearOrder α] {starts : List α} (sorted : starts.Pairwise (· ≤ ·))
    {i : Nat} (inside : i < starts.length) (offset : α) : starts[i] ≤ offset ↔ i < starts.countP (· ≤ offset) := by
  induction starts generalizing i with
  | nil => exact absurd inside (Nat.not_lt_zero i)
  | cons s starts ih =>
    obtain ⟨least, sorted⟩ := List.pairwise_cons.mp sorted
    by_cases reached : s ≤ offset
    · cases i with
      | zero => simp [reached]
      | succ i => simp [reached, ih sorted (Nat.lt_of_succ_lt_succ inside)]
    · -- The first entry lies behind the offset, and all others behind that.
      have before : (s :: starts).countP (· ≤ offset) = 0 := by
        simp only [List.countP_eq_zero, decide_eq_true_eq]
        rintro r member
        rcases List.mem_cons.mp member with rfl | later
        · exact reached
        · exact fun within => reached ((least r later).trans within)
      have behind : s ≤ (s :: starts)[i] := by
        cases i with
        | zero => exact le_rfl
        | succ i => exact least _ (List.getElem_mem _)
      rw [before]
      exact ⟨fun within => absurd (behind.trans within) reached, fun few => absurd few (Nat.not_lt_zero i)⟩

section Halving

variable {starts : List Int} {offset : Int}

theorem linesUpTo_go_eq_countP (sorted : starts.Pairwise (· ≤ ·)) {fuel lo hi : Nat} (enough : hi < lo + fuel)
    (within : hi ≤ starts.length) (above : lo ≤ starts.countP (· ≤ offset)) (below : starts.countP (· ≤ offset) ≤ hi) :
    linesUpTo.go starts offset lo hi fuel = starts.countP (· ≤ offset) := by
  induction fuel generalizing lo hi with
  | zero => exact absurd (above.trans below) (by omega)
  | succ fuel ih =>
    rw [linesUpTo.go]
    split
    · rename_i apart
      have inside : (lo + hi) / 2 < starts.length := by omega
      have half := getElem_le_iff_lt_countP sorted inside offset
      simp only [List.getD_eq_getElem _ _ inside]
      split
      · rename_i behind
        have few : starts.countP (· ≤ offset) ≤ (lo + hi) / 2 :=
          Nat.not_lt.mp fun more => absurd (half.mpr more) (Int.not_le.mpr behind)
        exact ih (by omega) inside.le above few
      · rename_i reached
        have more : (lo + hi) / 2 < starts.countP (· ≤ offset) := half.mp (Int.not_lt.mp reached)
        exact ih (by omega) within more below
    · omega

theorem linesUpTo_eq_countP (sorted : starts.Pairwise (· ≤ ·)) : linesUpTo starts offset = starts.countP (· ≤ offset) :=
  linesUpTo_go_eq_countP sorted (by omega) le_rfl (Nat.zero_le _) List.countP_le_length

end Halving

namespace Text

/-! ### Where lines start -/

theorem le_of_mem_lineStarts_go {t : Text} {next start : Nat} (member : start ∈ lineStarts.go next t) : next ≤ start := by
  induction t generalizing next with
  | nil => exact absurd member List.not_mem_nil
  | cons c t ih =>
    rw [lineStarts.go] at member
    split at member
    · rcases List.mem_cons.mp member with rfl | later
      · exact le_rfl
      · exact (Nat.le_succ next).trans (ih later)
    · exact (Nat.le_succ next).trans (ih member)

theorem lineStarts_go_sorted (t : Text) (next : Nat) : (lineStarts.go next t).Pairwise (· < ·) := by
  induction t generalizing next with
  | nil => exact List.Pairwise.nil
  | cons c t ih =>
    rw [lineStarts.go]
    split
    · exact List.pairwise_cons.mpr ⟨fun start later => le_of_mem_lineStarts_go later, ih (next + 1)⟩
    · exact ih (next + 1)

theorem lineStarts_sorted (t : Text) : t.lineStarts.Pairwise (· < ·) :=
  List.pairwise_cons.mpr ⟨fun _ later => le_of_mem_lineStarts_go later, lineStarts_go_sorted t 1⟩

theorem length_lineStarts (t : Text) : t.lineStarts.length = t.count '\n' + 1 := by
  have feeds : ∀ next, (lineStarts.go next t).length = t.count '\n' := by
    induction t with
    | nil => exact fun next => rfl
    | cons c t ih =>
      intro next
      rw [lineStarts.go, List.count_cons]
      split <;> rename_i feed <;> simp [feed, ih]
  rw [lineStarts, List.length_cons, feeds]

theorem countP_lineStarts_go (t : Text) (next length : Nat) :
    (lineStarts.go next t).countP (· < next + length) = (t.take length).count '\n' := by
  induction t generalizing next length with
  | nil => simp [lineStarts.go]
  | cons c t ih =>
    cases length with
    | zero =>
      simp only [List.take_zero, List.count_nil, List.countP_eq_zero, decide_eq_true_eq]
      exact fun start member => Nat.not_lt.mpr (le_of_mem_lineStarts_go member)
    | succ length =>
      have rest := ih (next + 1) length
      rw [show next + 1 + length = next + (length + 1) by omega] at rest
      rw [lineStarts.go, List.take_succ_cons, List.count_cons]
      split <;> rename_i feed <;> simp [feed, rest]

/-- The lines that start up to an offset are the first and one for each line feed before it. -/
theorem countP_lineStarts (t : Text) (offset : Nat) :
    t.lineStarts.countP (· ≤ offset) = (t.take offset).count '\n' + 1 := by
  have rest := countP_lineStarts_go t 1 offset
  simp only [Nat.lt_one_add_iff] at rest
  simp [lineStarts, rest]

theorem count_take_mono (t : Text) {i j : Nat} (le : i ≤ j) : (t.take i).count '\n' ≤ (t.take j).count '\n' :=
  (List.take_sublist_take_left le).count_le '\n'

/-- The line of an offset starts at or before it, and no line feed stands between. -/
theorem line_of_offset (t : Text) (offset : Nat) : ∃ start, t.lineStarts[(t.take offset).count '\n']? = some start ∧
    start ≤ offset ∧ '\n' ∉ t.slice start offset := by
  have sorted : t.lineStarts.Pairwise (· ≤ ·) := t.lineStarts_sorted.imp Nat.le_of_lt
  have inside : (t.take offset).count '\n' < t.lineStarts.length := by
    rw [length_lineStarts]
    exact Nat.lt_succ_of_le ((List.take_sublist offset t).count_le '\n')
  have upTo := getElem_le_iff_lt_countP sorted inside
  simp only [countP_lineStarts] at upTo
  obtain ⟨start, here⟩ : ∃ start, start = t.lineStarts[(t.take offset).count '\n'] := ⟨_, rfl⟩
  rw [← here] at upTo
  have le : start ≤ offset := (upTo offset).mpr (Nat.lt_succ_self _)
  have before : (t.take offset).count '\n' ≤ (t.take start).count '\n' := Nat.lt_succ_iff.mp ((upTo start).mp le_rfl)
  refine ⟨start, here ▸ List.getElem?_eq_getElem inside, le, fun between => ?_⟩
  have breaks : 0 < (t.slice start offset).count '\n' := List.count_pos_iff.mpr between
  have split : t.take offset = t.take start ++ t.slice start offset := by
    rw [slice, ← List.take_add, Nat.add_sub_cancel' le]
  rw [split, List.count_append] at before
  omega

end Text

/-! ### Points -/

/-- A point shows where an offset of a text is: its line has as many line feeds before it, and its column leads back to the
offset from the start of the line, past no line feed. -/
structure Point.Shows (p : Point) (t : Text) (offset : Nat) : Prop where
  line : p.line = (t.take offset).count '\n' + 1
  column : 1 ≤ p.column
  back : ∃ start, t.lineStarts[(p.line - 1).toNat]? = some start ∧ start + p.column - 1 = offset ∧
    '\n' ∉ t.slice start offset

namespace Point

theorem ofOffset?_lineStarts (t : Text) (offset : Nat) :
    ∃ p, ofOffset? (t.lineStarts.map Int.ofNat) offset = some p ∧ p.Shows t offset := by
  have sorted : (t.lineStarts.map Int.ofNat).Pairwise (· ≤ ·) :=
    List.pairwise_map.mpr (t.lineStarts_sorted.imp fun less => Int.ofNat_le.mpr less.le)
  have lines : linesUpTo (t.lineStarts.map Int.ofNat) offset = (t.take offset).count '\n' + 1 := by
    rw [linesUpTo_eq_countP sorted, List.countP_map, ← t.countP_lineStarts offset]
    exact List.countP_congr fun start _ => by simp
  obtain ⟨start, here, le, within⟩ := t.line_of_offset offset
  refine ⟨⟨(t.take offset).count '\n' + 1, offset - start + 1⟩, ?_, rfl, ?_, start, ?_, ?_, within⟩
  · simp [ofOffset?, lines, here]
  · change 1 ≤ (offset : Int) - start + 1
    omega
  · simpa using here
  · change (start : Int) + (offset - start + 1) - 1 = offset
    omega

variable {t : Text} {p q : Point} {i j : Nat}

/-- On one line columns are as far apart as offsets. -/
theorem Shows.column_sub (shown : p.Shows t i) (shown' : q.Shows t j) (same : p.line = q.line) :
    q.column - p.column = (j : Int) - i := by
  obtain ⟨start, here, back, -⟩ := shown.back
  obtain ⟨start', here', back', -⟩ := shown'.back
  obtain rfl : start = start' := Option.some.inj (here.symm.trans (same ▸ here'))
  omega

theorem Shows.lt_of_lt (shown : p.Shows t i) (shown' : q.Shows t j) (lt : i < j) :
    toLex (p.line, p.column) < toLex (q.line, q.column) := by
  have feeds := t.count_take_mono lt.le
  have ordered : p.line ≤ q.line := by
    rw [shown.line, shown'.line]
    omega
  rw [Prod.Lex.toLex_lt_toLex]
  rcases lt_or_eq_of_le ordered with above | same
  · exact Or.inl above
  · have apart := shown.column_sub shown' same
    exact Or.inr ⟨same, by omega⟩

/-- Points stand in the order of the offsets, line by line. -/
theorem Shows.lt_iff (shown : p.Shows t i) (shown' : q.Shows t j) :
    i < j ↔ toLex (p.line, p.column) < toLex (q.line, q.column) := by
  refine ⟨shown.lt_of_lt shown', fun less => ?_⟩
  rcases lt_trichotomy i j with lt | rfl | gt
  · exact lt
  · have same : p.line = q.line := shown.line.trans shown'.line.symm
    have apart := shown.column_sub shown' same
    rw [Prod.Lex.toLex_lt_toLex] at less
    rcases less with above | ⟨-, left⟩ <;> omega
  · exact absurd less (shown'.lt_of_lt shown gt).not_gt

end Point

/-- Positions in a text are exact and can be turned back into offsets. The table of line starts ascends from zero and has
one entry more than the text has line feeds; both ends of a range have points that show them, and points stand in the order
of the offsets. -/
theorem Position.ofSpan?_exact (t : Text) :
    t.lineStarts.Pairwise (· < ·) ∧ t.lineStarts.head? = some 0 ∧ t.lineStarts.length = t.count '\n' + 1 ∧
      ∀ start stop : Nat, ∃ p, Position.ofSpan? (t.lineStarts.map Int.ofNat) start stop = some p ∧
        p.start.Shows t start ∧ p.stop.Shows t stop ∧
        (start < stop ↔ toLex (p.start.line, p.start.column) < toLex (p.stop.line, p.stop.column)) ∧
        (stop < start ↔ toLex (p.stop.line, p.stop.column) < toLex (p.start.line, p.start.column)) := by
  refine ⟨t.lineStarts_sorted, rfl, t.length_lineStarts, fun start stop => ?_⟩
  obtain ⟨p, first, shown⟩ := Point.ofOffset?_lineStarts t start
  obtain ⟨q, last, shown'⟩ := Point.ofOffset?_lineStarts t stop
  refine ⟨⟨p, q⟩, ?_, shown, shown', shown.lt_iff shown', shown'.lt_iff shown⟩
  simp [Position.ofSpan?, first, last]

example : Position.ofSpan? ((Text.lineStarts "a\n\nb".toList).map Int.ofNat) 1 3 = some ⟨⟨1, 2⟩, ⟨3, 1⟩⟩ := by decide

end MarkdownLinks
