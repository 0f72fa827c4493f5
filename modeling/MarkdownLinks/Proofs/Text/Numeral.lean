import Mathlib.Data.List.TakeWhile
import Mathlib.Data.Nat.Digits.Defs
import MarkdownLinks.Text.Numeral

/-!
How the integers are spelled that are read as settings: padding, a sign, digits with single underscores between, and a
fraction of zeros. What is read is what is spelled, and nothing else is read.
-/

namespace MarkdownLinks
namespace Text

theorem hasInfix_cons (c : Char) (t p : Text) : hasInfix (c :: t) p = (p.isPrefixOf (c :: t) || t.hasInfix p) := by
  rw [hasInfix, find?]
  split
  · rename_i starts
    rw [starts, Bool.true_or]
    rfl
  · rename_i other
    rw [Bool.eq_false_iff.mpr other, Bool.false_or, Option.isSome_map, hasInfix]

theorem span_append {p : Char → Bool} {before rest : Text} (all : ∀ c ∈ before, p c) (stop : ∀ c ∈ rest.head?, ¬p c) :
    (before ++ rest).takeWhile p = before ∧ (before ++ rest).dropWhile p = rest := by
  rw [List.takeWhile_append_of_pos all, List.dropWhile_append_of_pos all]
  cases rest with
  | nil => simp
  | cons c rest =>
    have other := stop c rfl
    rw [List.takeWhile_cons_of_neg other, List.dropWhile_cons_of_neg other, List.append_nil]
    exact ⟨rfl, rfl⟩

end Text

namespace Numeral

def digit (c : Char) : Nat := c.toNat - '0'.toNat

/-- A run of ASCII digits, between which single underscores may stand, and the values of its digits. -/
inductive DigitRun : Text → List Nat → Prop
  | last {c : Char} (isDigit : c.isDigit) : DigitRun [c] [digit c]
  | digit {c : Char} {t : Text} {ds : List Nat} (isDigit : c.isDigit) (run : DigitRun t ds) :
      DigitRun (c :: t) (digit c :: ds)
  | underscore {c : Char} {t : Text} {ds : List Nat} (isDigit : c.isDigit) (run : DigitRun t ds) :
      DigitRun (c :: '_' :: t) (digit c :: ds)

/-- What may stand in front of the digits. -/
def IsMark (mark : Text) : Prop := mark = [] ∨ mark = ['+'] ∨ mark = ['-']

/-- What may stand behind the digits: a point with zeros, at least one, or nothing. -/
def IsFraction (fraction : Text) : Prop := fraction = [] ∨ ∃ n, fraction = '.' :: List.replicate (n + 1) '0'

/-- The spellings of an integer. -/
inductive Spells : Text → Int → Prop
  | spelled {before mark run fraction after : Text} {ds : List Nat}
      (opening : ∀ c ∈ before, isPadding c) (isMark : IsMark mark) (digits : DigitRun run ds)
      (isFraction : IsFraction fraction) (closing : ∀ c ∈ after, isPadding c) :
      Spells (before ++ (mark ++ (run ++ fraction)) ++ after)
        (if mark = ['-'] then -(Nat.ofDigits 10 ds.reverse : Nat) else (Nat.ofDigits 10 ds.reverse : Nat))

/-! ### Runs of digits -/

def inRun (c : Char) : Bool := (asciiDigit? c).isSome || c = '_'

theorem asciiDigit?_of_isDigit {c : Char} (isDigit : c.isDigit) : asciiDigit? c = some (digit c) := if_pos isDigit

theorem inRun_iff (c : Char) : inRun c ↔ c.isDigit ∨ c = '_' := by
  by_cases isDigit : c.isDigit <;> simp [inRun, asciiDigit?, isDigit]

theorem ne_underscore {c : Char} (isDigit : c.isDigit) : c ≠ '_' := by
  rintro rfl
  exact absurd isDigit (by decide)

theorem DigitRun.head? {t : Text} {ds : List Nat} (run : DigitRun t ds) : ∃ c ∈ t.head?, c.isDigit := by
  cases run with
  | last isDigit | digit isDigit | underscore isDigit => exact ⟨_, rfl, isDigit⟩

theorem isDigitRun_single {c : Char} (isDigit : c.isDigit) : isDigitRun [c] := by
  simp [isDigitRun, ne_underscore isDigit, Text.hasInfix, Text.find?]

theorem isDigitRun_digit {c d : Char} (isDigit : c.isDigit) (other : d ≠ '_') (t : Text) :
    isDigitRun (c :: d :: t) = isDigitRun (d :: t) := by
  have apart : ('_' == d) = false := beq_eq_false_iff_ne.mpr other.symm
  simp [isDigitRun, Text.hasInfix_cons, List.isPrefixOf, ne_underscore isDigit, other, apart]

theorem isDigitRun_underscore {c : Char} (isDigit : c.isDigit) (t : Text) :
    isDigitRun (c :: '_' :: t) = isDigitRun t := by
  cases t with
  | nil => simp [isDigitRun]
  | cons d t =>
    by_cases double : d = '_'
    · simp [isDigitRun, Text.hasInfix_cons, List.isPrefixOf, double]
    · have apart : ('_' == c) = false := beq_eq_false_iff_ne.mpr (ne_underscore isDigit).symm
      have apart' : ('_' == d) = false := beq_eq_false_iff_ne.mpr (Ne.symm double)
      simp [isDigitRun, Text.hasInfix_cons, List.isPrefixOf, ne_underscore isDigit, double, apart, apart']

theorem DigitRun.isDigitRun {t : Text} {ds : List Nat} (run : DigitRun t ds) : isDigitRun t := by
  induction run with
  | last isDigit => exact isDigitRun_single isDigit
  | underscore isDigit run ih => rw [isDigitRun_underscore isDigit, ih]
  | @digit c t ds isDigit run ih =>
    obtain ⟨d, here, isDigit'⟩ := run.head?
    obtain ⟨t, rfl⟩ := List.head?_eq_some_iff.mp here
    rw [isDigitRun_digit isDigit (ne_underscore isDigit'), ih]

/-- A text of digits and underscores that passes the test for a numeral is a run. -/
theorem exists_digitRun (t : Text) (only : ∀ c ∈ t, inRun c) (numeral : isDigitRun t) : ∃ ds, DigitRun t ds := by
  match t with
  | [] => exact absurd numeral (by decide)
  | c :: t =>
    have first : c ≠ '_' := by
      rintro rfl
      simp [isDigitRun] at numeral
    have isDigit : c.isDigit := ((inRun_iff c).mp (only c List.mem_cons_self)).resolve_right first
    match t with
    | [] => exact ⟨_, .last isDigit⟩
    | d :: t =>
      by_cases under : d = '_'
      · subst under
        rw [isDigitRun_underscore isDigit] at numeral
        obtain ⟨ds, run⟩ := exists_digitRun t (fun e later => only e (by simp [later])) numeral
        exact ⟨_, .underscore isDigit run⟩
      · rw [isDigitRun_digit isDigit under] at numeral
        obtain ⟨ds, run⟩ := exists_digitRun (d :: t) (fun e later => only e (List.mem_cons_of_mem c later)) numeral
        exact ⟨_, .digit isDigit run⟩

theorem DigitRun.inRun {t : Text} {ds : List Nat} (run : DigitRun t ds) : ∀ c ∈ t, inRun c := by
  induction run with
  | last isDigit => simp [inRun_iff, isDigit]
  | digit isDigit run ih => simpa [inRun_iff, isDigit] using ih
  | underscore isDigit run ih => simpa [inRun_iff, isDigit] using ih

theorem DigitRun.filterMap {t : Text} {ds : List Nat} (run : DigitRun t ds) : t.filterMap asciiDigit? = ds := by
  induction run with
  | last isDigit => simp [asciiDigit?_of_isDigit isDigit]
  | digit isDigit run ih => simp [asciiDigit?_of_isDigit isDigit, ih]
  | underscore isDigit run ih =>
    have other : asciiDigit? '_' = none := rfl
    simp [asciiDigit?_of_isDigit isDigit, other, ih]

/-- The digits at the start of a text are those of a run, up to the first character that no run has. -/
theorem digits?_eq_some_iff (t : Text) (ds : List Nat) (rest : Text) : digits? asciiDigit? t = some (ds, rest) ↔
    ∃ run, t = run ++ rest ∧ DigitRun run ds ∧ ∀ c ∈ rest.head?, ¬inRun c := by
  have unfolded : digits? asciiDigit? t = if isDigitRun (t.takeWhile inRun) then
      some ((t.takeWhile inRun).filterMap asciiDigit?, t.dropWhile inRun) else none := rfl
  rw [unfolded]
  constructor
  · intro read
    split at read
    · rename_i numeral
      obtain ⟨rfl, rfl⟩ := Prod.mk.inj (Option.some.inj read)
      obtain ⟨ds, run⟩ := exists_digitRun _ (fun c inside => List.mem_takeWhile_imp inside) numeral
      refine ⟨_, List.takeWhile_append_dropWhile.symm, run.filterMap.symm ▸ run, fun c here inside => ?_⟩
      have ends := List.head?_dropWhile_not inRun t
      rw [here] at ends
      exact Bool.false_ne_true (ends.symm.trans inside)
    · exact nomatch read
  · rintro ⟨run, rfl, isRun, ends⟩
    obtain ⟨taken, left⟩ := Text.span_append isRun.inRun ends
    rw [taken, left, if_pos isRun.isDigitRun, isRun.filterMap]

/-! ### Signs, fractions and padding -/

theorem sign_split (t : Text) : ∃ mark, t = mark ++ (sign t).2 ∧ IsMark mark ∧
    (sign t).1 = decide (mark = ['-']) := by
  unfold sign
  split
  · exact ⟨['-'], rfl, Or.inr (Or.inr rfl), rfl⟩
  · exact ⟨['+'], rfl, Or.inr (Or.inl rfl), rfl⟩
  · exact ⟨[], rfl, Or.inl rfl, rfl⟩

theorem sign_append {mark t : Text} (isMark : IsMark mark) {c : Char} (here : c ∈ t.head?) (isDigit : c.isDigit) :
    sign (mark ++ t) = (decide (mark = ['-']), t) := by
  obtain ⟨t, rfl⟩ := List.head?_eq_some_iff.mp here
  rcases isMark with rfl | rfl | rfl
  · rw [List.nil_append, sign]
    · rfl
    all_goals
      rintro rest same
      obtain ⟨rfl, -⟩ := List.cons.inj same
      exact absurd isDigit (by decide)
  · rfl
  · rfl

theorem isZeroFraction_iff (t : Text) : isZeroFraction t ↔ IsFraction t := by
  unfold isZeroFraction IsFraction
  split
  · simp
  · rename_i zeros
    simp only [Bool.and_eq_true, Bool.not_eq_true', List.isEmpty_eq_false_iff, List.all_eq_true, decide_eq_true_eq,
      List.cons_ne_nil, false_or, List.cons.injEq, true_and]
    constructor
    · rintro ⟨filled, all⟩
      obtain ⟨n, length⟩ := Nat.exists_eq_succ_of_ne_zero (mt List.eq_nil_of_length_eq_zero filled)
      exact ⟨n, List.eq_replicate_iff.mpr ⟨length, all⟩⟩
    · rintro ⟨n, rfl⟩
      exact ⟨List.cons_ne_nil _ _, fun c inside => List.eq_of_mem_replicate inside⟩
  · rename_i filled other
    simp only [Bool.false_eq_true, false_iff, not_or, not_exists]
    exact ⟨filled, fun n => other _⟩

theorem value_eq_ofDigits (ds : List Nat) : value ds = Nat.ofDigits 10 ds.reverse := by
  rw [value, Nat.ofDigits_eq_foldr, List.foldr_reverse]
  congr
  funext n d
  simp [Nat.add_comm]

theorem not_isPadding {c : Char} (shown : c.isDigit ∨ c = '_' ∨ c = '+' ∨ c = '-' ∨ c = '.') : ¬isPadding c := by
  rcases shown with isDigit | rfl | rfl | rfl | rfl
  · have digit : 48 ≤ c.toNat ∧ c.toNat ≤ 57 := Char.isDigit_iff_toNat.mp isDigit
    simp [isPadding, isWhitespace, inRanges, whitespaceRanges]
    omega
  all_goals decide

/-- What trimming takes off is padding. -/
theorem trim_split (t : Text) : ∃ before after, t = before ++ trim t ++ after ∧ (∀ c ∈ before, isPadding c) ∧
    ∀ c ∈ after, isPadding c := by
  refine ⟨t.takeWhile isPadding, ((t.dropWhile isPadding).reverse.takeWhile isPadding).reverse, ?_,
    fun c inside => List.mem_takeWhile_imp inside, fun c inside => List.mem_takeWhile_imp (List.mem_reverse.mp inside)⟩
  rw [List.append_assoc, trim, Text.dropWhileEnd, ← List.reverse_append, List.takeWhile_append_dropWhile,
    List.reverse_reverse, List.takeWhile_append_dropWhile]

theorem trim_append {before core after : Text} (opening : ∀ c ∈ before, isPadding c) (filled : core ≠ [])
    (shown : ∀ c ∈ core, ¬isPadding c) (closing : ∀ c ∈ after, isPadding c) : trim (before ++ core ++ after) = core := by
  have front : (before ++ core ++ after).dropWhile isPadding = core ++ after := by
    rw [List.append_assoc]
    refine (Text.span_append opening fun c here => shown c ?_).2
    cases core with
    | nil => exact absurd rfl filled
    | cons d core => exact List.mem_of_mem_head? (l := d :: core) here
  have back : (after.reverse ++ core.reverse).dropWhile isPadding = core.reverse :=
    (Text.span_append (fun c inside => closing c (List.mem_reverse.mp inside)) fun c here =>
      shown c (List.mem_reverse.mp (List.mem_of_mem_head? here))).2
  rw [trim, front, Text.dropWhileEnd, List.reverse_append, back, List.reverse_reverse]

/-! ### Reading -/

theorem DigitRun.ne_nil {t : Text} {ds : List Nat} (run : DigitRun t ds) : t ≠ [] := by
  rintro rfl
  exact nomatch run

/-- The characters of a sign, digits and a fraction of zeros are no padding. -/
theorem not_isPadding_of_mem {mark run fraction : Text} {ds : List Nat} (isMark : IsMark mark) (digits : DigitRun run ds)
    (isFraction : IsFraction fraction) {c : Char} (inside : c ∈ mark ++ (run ++ fraction)) : ¬isPadding c := by
  refine not_isPadding ?_
  rcases List.mem_append.mp inside with inside | inside
  · rcases isMark with rfl | rfl | rfl <;> simp_all
  rcases List.mem_append.mp inside with inside | inside
  · rcases (inRun_iff c).mp (digits.inRun c inside) with isDigit | under
    · exact Or.inl isDigit
    · exact Or.inr (Or.inl under)
  · rcases isFraction with rfl | ⟨n, rfl⟩
    · exact absurd inside List.not_mem_nil
    · rcases List.mem_cons.mp inside with point | zero
      · simp [point]
      · rw [List.eq_of_mem_replicate zero]
        decide

theorem IsFraction.not_inRun {fraction : Text} (isFraction : IsFraction fraction) : ∀ c ∈ fraction.head?, ¬inRun c := by
  rintro c here
  rcases isFraction with rfl | ⟨n, rfl⟩
  · exact nomatch here
  · obtain rfl : '.' = c := Option.some.inj here
    decide

theorem readSetting?_eq (t : Text) : readSetting? t =
    (digits? asciiDigit? (sign (trim t)).2).bind fun (ds, rest) =>
      if isZeroFraction rest then some (signed (sign (trim t)).1 (value ds)) else none := rfl

/-- What is read as a setting are the spelled integers. -/
theorem readSetting?_eq_some_iff (t : Text) (n : Int) : readSetting? t = some n ↔ Spells t n := by
  rw [readSetting?_eq]
  constructor
  · intro read
    obtain ⟨before, after, padded, opening, closing⟩ := trim_split t
    obtain ⟨mark, marked, isMark, negative⟩ := sign_split (trim t)
    obtain ⟨⟨ds, fraction⟩, found, isFraction⟩ := Option.bind_eq_some_iff.mp read
    obtain ⟨run, split, digits, -⟩ := (digits?_eq_some_iff _ ds fraction).mp found
    dsimp only at isFraction
    split at isFraction
    · rename_i zeros
      rw [padded, marked, split, ← Option.some.inj isFraction, negative, value_eq_ofDigits, signed]
      simp only [decide_eq_true_eq]
      exact .spelled opening isMark digits ((isZeroFraction_iff fraction).mp zeros) closing
    · exact nomatch isFraction
  · rintro ⟨opening, isMark, digits, isFraction, closing⟩
    rename_i before mark run fraction after ds
    obtain ⟨c, here, isDigit⟩ := digits.head?
    have core : mark ++ (run ++ fraction) ≠ [] := by simp [digits.ne_nil]
    have first : c ∈ (run ++ fraction).head? := by
      rw [List.head?_append, here]
      rfl
    have read : digits? asciiDigit? (run ++ fraction) = some (ds, fraction) :=
      (digits?_eq_some_iff _ ds fraction).mpr ⟨run, rfl, digits, isFraction.not_inRun⟩
    rw [trim_append opening core (fun d inside => not_isPadding_of_mem isMark digits isFraction inside) closing,
      sign_append isMark first isDigit]
    simp [read, (isZeroFraction_iff fraction).mpr isFraction, signed, value_eq_ofDigits]

example : readSetting? "\t+1_000.00 ".toList = some 1000 ∧ readSetting? "1__0".toList = none := by decide

end Numeral
end MarkdownLinks
