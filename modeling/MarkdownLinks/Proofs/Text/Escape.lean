import Mathlib.Algebra.Ring.Parity
import Mathlib.Data.List.Infix
import MarkdownLinks.Text.Escape

/-!
Escaping and what takes the escapes out again. A text comes back as it was if its own backslashes stand only in front of
what is no punctuation or has been escaped itself. If backslashes are escaped as well, every text comes back, and an
escaped character cannot be taken for one that ends the text.
-/

namespace MarkdownLinks
namespace Text

/-- A text with a backslash in front of each character that `p` accepts. -/
def escape (p : Char → Bool) (t : Text) : Text := t.flatMap fun c => if p c then ['\\', c] else [c]

/-- Whether all punctuation behind a backslash is accepted by `p`. -/
def EscapesOnly (p : Char → Bool) (t : Text) : Prop := ∀ c, ['\\', c] <:+: t → isAsciiPunctuation c → p c

variable {p : Char → Bool} {c : Char} {t : Text}

theorem backslash_isAsciiPunctuation : isAsciiPunctuation '\\' := rfl

/-! ### One character -/

theorem unescape_cons (plain : c ≠ '\\') (t : Text) : unescape (c :: t) = c :: unescape t := by
  rw [unescape]
  intro d s same
  exact absurd same plain

theorem unescape_escaped (mark : isAsciiPunctuation c) (t : Text) : unescape ('\\' :: c :: t) = c :: unescape t := by
  rw [unescape, if_pos mark]

theorem unescape_kept (other : ¬ isAsciiPunctuation c) (t : Text) :
    unescape ('\\' :: c :: t) = '\\' :: c :: unescape t := by
  rw [unescape, if_neg other]

theorem escape_cons_of_pos (asked : p c) (t : Text) : escape p (c :: t) = '\\' :: c :: escape p t := by
  simp [escape, asked]

theorem escape_cons_of_neg (other : ¬ p c) (t : Text) : escape p (c :: t) = c :: escape p t := by
  simp [escape, other]

/-- A character that is no backslash comes back, escaped or not. -/
theorem unescape_escape_cons (marks : ∀ c, p c → isAsciiPunctuation c) (plain : c ≠ '\\') (t : Text) :
    unescape (escape p (c :: t)) = c :: unescape (escape p t) := by
  by_cases asked : p c
  · rw [escape_cons_of_pos asked, unescape_escaped (marks c asked)]
  · rw [escape_cons_of_neg asked, unescape_cons plain]

/-- So does a backslash in front of a character that is escaped or cannot be. -/
theorem unescape_escape_backslash (marks : ∀ c, p c → isAsciiPunctuation c) (bare : ¬ p '\\')
    (free : isAsciiPunctuation c → p c) (t : Text) :
    unescape (escape p ('\\' :: c :: t)) = '\\' :: c :: unescape (escape p t) := by
  rw [escape_cons_of_neg bare]
  by_cases mark : isAsciiPunctuation c
  · have plain : c ≠ '\\' := fun same => bare (same ▸ free mark)
    rw [escape_cons_of_pos (free mark), unescape_escaped backslash_isAsciiPunctuation, unescape_cons plain]
  · rw [escape_cons_of_neg (mt (marks c) mark), unescape_kept mark]

/-- In front of any other character it is lost. -/
theorem unescape_escape_lost (bare : ¬ p '\\') (mark : isAsciiPunctuation c) (other : ¬ p c) (t : Text) :
    unescape (escape p ('\\' :: c :: t)) = c :: unescape (escape p t) := by
  rw [escape_cons_of_neg bare, escape_cons_of_neg other, unescape_escaped mark]

theorem escape_append (s t : Text) : escape p (s ++ t) = escape p s ++ escape p t := List.flatMap_append

/-- Two replacements, one after the other, escape two characters, unless the second one is brought in by the first. -/
theorem replaceChar_eq_escape {a b : Char} (distinct : a ≠ b) (plain : b ≠ '\\') (t : Text) :
    (t.replaceChar a ['\\', a]).replaceChar b ['\\', b] = t.escape fun c => c = a || c = b := by
  rw [replaceChar, replaceChar, List.flatMap_assoc, escape]
  refine List.flatMap_congr fun c _ => ?_
  by_cases first : c = a
  · simp [first, distinct, Ne.symm plain]
  · by_cases second : c = b <;> simp [first, second, Ne.symm distinct]

theorem escapesOnly_cons (plain : c ≠ '\\') (t : Text) : EscapesOnly p (c :: t) ↔ EscapesOnly p t := by
  refine forall_congr' fun d => ?_
  rw [List.infix_cons_iff]
  simp [Ne.symm plain]

theorem escapesOnly_backslash (t : Text) :
    EscapesOnly p ('\\' :: c :: t) ↔ (isAsciiPunctuation c → p c) ∧ EscapesOnly p (c :: t) := by
  constructor
  · intro only
    exact ⟨only c ⟨[], t, rfl⟩, fun d inside => only d (List.infix_cons inside)⟩
  · rintro ⟨free, later⟩ d inside
    rcases List.infix_cons_iff.mp inside with first | within
    · obtain ⟨-, first⟩ := List.cons_prefix_cons.mp first
      obtain ⟨rfl, -⟩ := List.cons_prefix_cons.mp first
      exact free
    · exact later d within

/-! ### Texts whose backslashes are not escaped -/

/-- What comes back is never longer than what was escaped. -/
theorem unescape_escape_length (marks : ∀ c, p c → isAsciiPunctuation c) (bare : ¬ p '\\') (t : Text) :
    (unescape (escape p t)).length ≤ t.length := by
  fun_induction unescape t with
  | case1 => exact Nat.le_refl 0
  | case2 c t mark ih =>
    by_cases free : p c
    · rw [unescape_escape_backslash marks bare fun _ => free]
      simpa using ih
    · rw [unescape_escape_lost bare mark free]
      simpa using Nat.le_succ_of_le ih
  | case3 c t other ih =>
    rw [unescape_escape_backslash marks bare fun mark => absurd mark other]
    simpa using ih
  | case4 c t alone ih =>
    by_cases own : c = '\\'
    · subst own
      cases t with
      | nil => rw [escape_cons_of_neg bare]; exact Nat.le_refl 1
      | cons d t => exact absurd rfl (alone d t rfl)
    · rw [unescape_escape_cons marks own]
      simpa using ih

/-- A text in which backslashes are not escaped comes back as it was exactly if its own backslashes escape nothing but
what has been escaped. -/
theorem unescape_escape_iff (marks : ∀ c, p c → isAsciiPunctuation c) (bare : ¬ p '\\') (t : Text) :
    unescape (escape p t) = t ↔ EscapesOnly p t := by
  fun_induction unescape t with
  | case1 => simp [EscapesOnly, escape, unescape]
  | case2 c t mark ih =>
    rw [escapesOnly_backslash]
    by_cases free : p c
    · have plain : c ≠ '\\' := fun same => bare (same ▸ free)
      rw [unescape_escape_backslash marks bare fun _ => free, escapesOnly_cons plain, ← ih]
      simp [free]
    · -- The backslash is lost, and nothing can make up for it.
      rw [unescape_escape_lost bare mark free]
      refine ⟨fun same => ?_, fun only => absurd (only.1 mark) free⟩
      have shorter := unescape_escape_length marks bare t
      have lengths := congrArg List.length same
      simp only [List.length_cons] at lengths
      omega
  | case3 c t other ih =>
    have plain : c ≠ '\\' := fun same => other (same ▸ backslash_isAsciiPunctuation)
    rw [escapesOnly_backslash, unescape_escape_backslash marks bare fun mark => absurd mark other,
      escapesOnly_cons plain, ← ih]
    simp [other]
  | case4 c t alone ih =>
    by_cases own : c = '\\'
    · subst own
      cases t with
      | nil => simp [EscapesOnly, escape, unescape, bare, List.infix_cons_iff]
      | cons d t => exact absurd rfl (alone d t rfl)
    · rw [unescape_escape_cons marks own, escapesOnly_cons own, ← ih, List.cons.injEq]
      simp

/-! ### Texts whose backslashes are escaped -/

/-- How many backslashes there are at the end of a text. -/
def endBackslashes (t : Text) : Nat := (t.reverse.takeWhile (· = '\\')).length

theorem endBackslashes_concat (t : Text) (c : Char) :
    (t ++ [c]).endBackslashes = if c = '\\' then t.endBackslashes + 1 else 0 := by
  by_cases own : c = '\\' <;> simp [endBackslashes, own]

theorem unescape_escape (marks : ∀ c, p c → isAsciiPunctuation c) (covers : p '\\') (t : Text) :
    unescape (escape p t) = t := by
  induction t with
  | nil => rfl
  | cons c t ih =>
    by_cases own : c = '\\'
    · rw [own, escape_cons_of_pos covers, unescape_escaped backslash_isAsciiPunctuation, ih]
    · rw [unescape_escape_cons marks own, ih]

/-- An escaped character has an odd number of backslashes in front of it. Those of the text before it come in pairs, also
if the text goes on from one that ends in an even number of them. -/
theorem odd_endBackslashes (covers : p '\\') (asked : p c) (other : c ≠ '\\') {s before after : Text}
    (even : Even s.endBackslashes) (cut : escape p t = before ++ c :: after) : Odd (s ++ before).endBackslashes := by
  induction t generalizing s before with
  | nil => simp [escape] at cut
  | cons d t ih =>
    by_cases escaped : p d
    · rw [escape_cons_of_pos escaped] at cut
      rcases before with _ | ⟨e, _ | ⟨e', before⟩⟩
      · exact absurd (List.cons.inj cut).1.symm other
      · rw [← (List.cons.inj cut).1, endBackslashes_concat, if_pos rfl]
        exact even.add_one
      · simp only [List.cons_append, List.cons.injEq] at cut
        obtain ⟨rfl, rfl, cut⟩ := cut
        have pair : Even (s ++ ['\\'] ++ [d]).endBackslashes := by
          rw [endBackslashes_concat, endBackslashes_concat]
          split
          · exact even.add_one.add_one
          · exact Even.zero
        simpa using ih pair cut
    · have plain : d ≠ '\\' := fun same => escaped (same ▸ covers)
      rw [escape_cons_of_neg escaped] at cut
      rcases before with _ | ⟨e, before⟩
      · exact absurd ((List.cons.inj cut).1 ▸ asked) escaped
      · simp only [List.cons_append, List.cons.injEq] at cut
        obtain ⟨rfl, cut⟩ := cut
        have even : Even (s ++ [d]).endBackslashes := by
          rw [endBackslashes_concat, if_neg plain]
          exact Even.zero
        simpa using ih even cut

/-- What stands behind an escaped text is not escaped by it. -/
theorem even_endBackslashes (covers : p '\\') (asked : p c) (other : c ≠ '\\') (t : Text) :
    Even (escape p t).endBackslashes := by
  -- Had one more character been escaped, its own backslash would make the number odd.
  have more : escape p (t ++ [c]) = (escape p t ++ ['\\']) ++ c :: [] := by
    rw [escape_append, escape_cons_of_pos asked]
    simp [escape]
  have odd := odd_endBackslashes covers asked other (s := []) Even.zero more
  rw [List.nil_append, endBackslashes_concat, if_pos rfl, Nat.odd_add_one, Nat.not_odd_iff_even] at odd
  exact odd

theorem findUnescaped?_go_escape (covers : p '\\') (asked : p c) (other : c ≠ '\\') (i : Nat) (t rest : Text) :
    findUnescaped?.go c (fun _ => false) i false (escape p t ++ c :: rest) = some (i + (escape p t).length) := by
  induction t generalizing i with
  | nil => simp [escape, findUnescaped?.go]
  | cons d t ih =>
    by_cases escaped : p d
    · rw [escape_cons_of_pos escaped]
      simp [findUnescaped?.go, Ne.symm other, ih]
      omega
    · have plain : d ≠ '\\' := fun same => escaped (same ▸ covers)
      have differs : d ≠ c := fun same => escaped (same ▸ asked)
      rw [escape_cons_of_neg escaped]
      simp [findUnescaped?.go, plain, differs, ih]
      omega

/-- A search for a character that is escaped passes over the whole text. -/
theorem findUnescaped?_escape (covers : p '\\') (asked : p c) (other : c ≠ '\\') (t rest : Text) :
    findUnescaped? (escape p t ++ c :: rest) c (fun _ => false) = some (escape p t).length := by
  rw [findUnescaped?, findUnescaped?_go_escape covers asked other, Nat.zero_add]

/-! ### Texts that need no escapes -/

theorem unescape_of_not_mem {t : Text} (bare : '\\' ∉ t) : t.unescape = t := by
  induction t with
  | nil => rfl
  | cons c t ih =>
    rw [List.mem_cons, not_or] at bare
    rw [unescape_cons (Ne.symm bare.1), ih bare.2]

theorem findUnescaped?_append {t : Text} {target : Char} {stop : Char → Bool}
    (passes : ∀ c ∈ t, c ≠ target ∧ stop c = false ∧ c ≠ '\\') (rest : Text) :
    findUnescaped? (t ++ target :: rest) target stop = some t.length := by
  have each (i : Nat) : findUnescaped?.go target stop i false (t ++ target :: rest) = some (i + t.length) := by
    induction t generalizing i with
    | nil => simp [findUnescaped?.go]
    | cons c t ih =>
      obtain ⟨⟨other, passed, bare⟩, passes⟩ := List.forall_mem_cons.mp passes
      rw [List.cons_append, findUnescaped?.go, if_neg Bool.false_ne_true, if_neg other, passed, if_neg Bool.false_ne_true,
        decide_eq_false bare, ih passes, List.length_cons, Nat.add_right_comm, Nat.add_assoc]
  rw [findUnescaped?, each, Nat.zero_add]

theorem isPaired_of_not_mem {t : Text} {opening closing : Char}
    (absent : ∀ c ∈ t, c ≠ '\\' ∧ c ≠ opening ∧ c ≠ closing) : t.isPaired opening closing = true := by
  rw [isPaired]
  induction t with
  | nil => rfl
  | cons c t ih =>
    obtain ⟨⟨bare, notOpening, notClosing⟩, absent⟩ := List.forall_mem_cons.mp absent
    rw [isPaired.go, if_neg Bool.false_ne_true, if_neg bare, if_neg notOpening, if_neg notClosing, ih absent]

end Text
end MarkdownLinks
