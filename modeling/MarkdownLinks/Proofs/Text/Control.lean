import Mathlib.Data.List.Infix
import MarkdownLinks.Text.Control

/-! What dropping control sequences leaves alone: exactly the texts that have none. -/

namespace MarkdownLinks
namespace Text

theorem withoutControls_go_sublist (left : Nat) (t : Text) : (withoutControls.go left t).Sublist t := by
  induction t generalizing left with
  | nil => cases left <;> exact List.Sublist.refl []
  | cons c t ih =>
    cases left with
    | succ left => exact (ih left).cons c
    | zero =>
      rw [withoutControls.go]
      split
      · exact (ih 0).cons_cons c
      · rename_i left _
        exact (ih left).cons c

/-- A text stays as it is if no control sequence begins anywhere in it, and only then. -/
theorem withoutControls_eq_self_iff (t : Text) : t.withoutControls = t ↔ ∀ s, s <:+ t → controlLength s = 0 := by
  unfold withoutControls
  induction t with
  | nil =>
    refine ⟨fun _ s tail => ?_, fun _ => rfl⟩
    rw [List.suffix_nil.mp tail]
    rfl
  | cons c t ih =>
    rw [withoutControls.go]
    cases own : controlLength (c :: t) with
    | zero =>
      rw [List.cons.injEq, ih]
      refine ⟨fun later s tail => ?_, fun all => ⟨rfl, fun s tail => all s (tail.trans (List.suffix_cons c t))⟩⟩
      rcases List.suffix_cons_iff.mp tail with rfl | tail
      · exact own
      · exact later.2 s tail
    | succ left =>
      refine ⟨fun same => ?_, fun all => ?_⟩
      · -- What is left of the tail is no longer than the tail.
        have shorter := (withoutControls_go_sublist left t).length_le
        change withoutControls.go left t = c :: t at same
        rw [same, List.length_cons] at shorter
        omega
      · rw [all (c :: t) List.suffix_rfl] at own
        exact nomatch own

end Text
end MarkdownLinks
