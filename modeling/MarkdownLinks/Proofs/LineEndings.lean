import MarkdownLinks.Link.Transform
import MarkdownLinks.Proofs.Text.Replace

/-!
Line endings do not matter. Carriage returns and form feeds end lines like line feeds; once they are uniform, making them
uniform again changes nothing, and all that is done with a text, from the positions of its links on, is done with the
uniform one.
-/

namespace MarkdownLinks
namespace Text

/-- The endings can be made uniform one kind after the other, the longest first. -/
theorem normalizeLineEndings_eq_replace (t : Text) : t.normalizeLineEndings =
    ((t.replace ['\r', '\n'] ['\n']).replace ['\r'] ['\n']).replace ['\x0c'] ['\n'] := by
  rw [replace_singleton, replace_singleton, replace]
  fun_induction normalizeLineEndings t with
  | case1 => rfl
  | case2 t ih => simpa [replace.go, replaceChar] using ih
  | case3 c t single ih =>
    have apart : ['\r', '\n'].isPrefixOf (c :: t) = false := by
      cases t with
      | nil => simp [List.isPrefixOf]
      | cons d t =>
        simp only [List.isPrefixOf_cons_cons, List.isPrefixOf_nil_left, Bool.and_true, Bool.and_eq_false_iff,
          beq_eq_false_iff_ne]
        by_contra both
        push Not at both
        exact single t both.1.symm (by rw [both.2])
    rw [replace.go, apart, if_neg Bool.false_ne_true, ih]
    by_cases feed : c = '\r'
    · simp [replaceChar, feed]
    · by_cases form : c = '\x0c' <;> simp [replaceChar, feed, form]

theorem return_not_mem_normalizeLineEndings (t : Text) : '\r' ∉ t.normalizeLineEndings := by
  rw [normalizeLineEndings_eq_replace, replace_singleton, replace_singleton]
  exact not_mem_replaceChar (not_mem_replaceChar_self (by decide) _) (by decide)

theorem formFeed_not_mem_normalizeLineEndings (t : Text) : '\x0c' ∉ t.normalizeLineEndings := by
  rw [normalizeLineEndings_eq_replace, replace_singleton]
  exact not_mem_replaceChar_self (by decide) _

theorem normalizeLineEndings_of_uniform {t : Text} (returns : '\r' ∉ t) (feeds : '\x0c' ∉ t) :
    t.normalizeLineEndings = t := by
  rw [normalizeLineEndings_eq_replace, replace_of_not_mem returns, replace_of_not_mem returns, replace_of_not_mem feeds]

theorem normalizeLineEndings_idem (t : Text) : t.normalizeLineEndings.normalizeLineEndings = t.normalizeLineEndings :=
  normalizeLineEndings_of_uniform t.return_not_mem_normalizeLineEndings t.formFeed_not_mem_normalizeLineEndings

/-- Changing characters other than line feeds leaves the lines where they are. -/
theorem lineStarts_map {f : Char → Char} (feeds : ∀ c, f c = '\n' ↔ c = '\n') (t : Text) :
    lineStarts (t.map f) = t.lineStarts := by
  have same : ∀ next, lineStarts.go next (t.map f) = lineStarts.go next t := by
    induction t with
    | nil => exact fun next => rfl
    | cons c t ih =>
      intro next
      simp only [List.map_cons, lineStarts.go, feeds, ih]
  rw [lineStarts, lineStarts, same]

end Text

/-! ### What is read and what becomes of it -/

variable {s t : Text}

/-- The positions of links are counted in the lines of the text that is read. -/
theorem Document.lineStarts_sourceText (t : Text) : (sourceText t).lineStarts = t.normalizeLineEndings.lineStarts := by
  refine Text.lineStarts_map (fun c => ?_) t.normalizeLineEndings
  split
  · rename_i null
    rw [null]
    decide
  · rfl

theorem Document.parseFrom_congr (same : s.normalizeLineEndings = t.normalizeLineEndings) (next : Nat) :
    parseFrom next s = parseFrom next t := by
  simp only [parseFrom, sourceText, same]

theorem transformText_congr (same : s.normalizeLineEndings = t.normalizeLineEndings) (width : Option Int) :
    transformText s width = transformText t width := by
  simp only [transformText, Document.parseFrom_congr same]

/-- A text and the one with uniform line endings are read as the same document, with the same positions, and give the same
result or fail alike. Uniform endings are line feeds, put for the other endings one kind after the other; they are as
uniform as they get, and the lines that positions count are those of the text that is read. -/
theorem transformText_normalizeLineEndings (t : Text) (width : Option Int) :
    transformText t.normalizeLineEndings width = transformText t width ∧
      Document.parse t.normalizeLineEndings = Document.parse t ∧
      (Document.sourceText t).lineStarts = t.normalizeLineEndings.lineStarts ∧
      t.normalizeLineEndings =
        ((t.replace ['\r', '\n'] ['\n']).replace ['\r'] ['\n']).replace ['\x0c'] ['\n'] ∧
      t.normalizeLineEndings.normalizeLineEndings = t.normalizeLineEndings ∧
      '\r' ∉ t.normalizeLineEndings ∧ '\x0c' ∉ t.normalizeLineEndings := by
  have uniform := t.normalizeLineEndings_idem
  refine ⟨transformText_congr uniform width, ?_, Document.lineStarts_sourceText t, t.normalizeLineEndings_eq_replace, uniform,
    t.return_not_mem_normalizeLineEndings, t.formFeed_not_mem_normalizeLineEndings⟩
  rw [Document.parse, Document.parse, Document.parseFrom_congr uniform]

example : Text.normalizeLineEndings "a\r\r\nb\x0c\r".toList = "a\n\nb\n\n".toList := by decide

end MarkdownLinks
