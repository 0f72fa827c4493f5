import Mathlib.Algebra.Order.Field.Basic
import Mathlib.Algebra.Order.Field.Rat
import Mathlib.Data.Rat.Cast.Defs
import MarkdownLinks.Options
import MarkdownLinks.Proofs.Text.Numeral
import MarkdownLinks.Proofs.Text.Words

/-!
Which settings make options. Exactly those are accepted that are known and stand for a positive integer, or are left open;
all others are reported, one by one and by name.
-/

namespace MarkdownLinks
namespace Setting

/-- The integers that settings stand for: a flag for one or zero, a fraction for its value if that is whole, a text for
what it spells. -/
inductive Denotes : Setting → Int → Prop
  | flag (b : Bool) : Denotes (.flag b) (if b then 1 else 0)
  | integer (n : Int) : Denotes (.integer n) n
  | fraction {m e n : Int} (whole : (m : ℚ) * 2 ^ e = n) : Denotes (.fraction m e) n
  | text {t : Text} {n : Int} (spelled : Numeral.Spells t n) : Denotes (.text t) n

/-- What is no column budget: a setting that is not left open and stands for no positive integer. -/
def Rejected (s : Setting) : Prop := s ≠ .null ∧ ∀ n, s.Denotes n → n ≤ 0

theorem exactQuotient_eq_some_iff {scale : Int} (positive : scale ≠ 0) (m n : Int) :
    (if m % scale = 0 then some (m / scale) else none) = some n ↔ m = n * scale := by
  split
  · rename_i whole
    rw [Option.some_inj, Int.ediv_eq_iff_eq_mul_left positive (Int.dvd_of_emod_eq_zero whole)]
  · rename_i broken
    constructor
    · intro missing
      exact nomatch missing
    · rintro rfl
      exact absurd (Int.mul_emod_left n scale) broken

theorem wholeValue?_eq_some_iff (m e n : Int) : wholeValue? m e = some n ↔ (m : ℚ) * 2 ^ e = n := by
  rw [wholeValue?]
  split
  · rename_i up
    obtain ⟨k, rfl⟩ := Int.eq_ofNat_of_zero_le up
    rw [Option.some_inj, zpow_natCast]
    norm_cast
  · rename_i down
    obtain ⟨k, rfl⟩ : ∃ k : Nat, e = -k := ⟨e.natAbs, by omega⟩
    have scale : (Nat.pow 2 (-(k : Int)).natAbs : Int) = 2 ^ k := by simp
    have positive : (2 : ℚ) ^ k ≠ 0 := pow_ne_zero k two_ne_zero
    rw [exactQuotient_eq_some_iff (by rw [scale]; positivity), scale, zpow_neg, zpow_natCast, ← div_eq_mul_inv,
      div_eq_iff positive]
    norm_cast

/-- A setting is read as the integer that it stands for. -/
theorem integer?_eq_some_iff (s : Setting) (n : Int) : s.integer? = .ok (some n) ↔ s.Denotes n := by
  constructor
  · intro read
    cases s with
    | null => exact nomatch read
    | compound => exact nomatch read
    | flag b =>
      obtain rfl := Option.some.inj (Except.ok.inj read)
      exact .flag b
    | integer m =>
      obtain rfl := Option.some.inj (Except.ok.inj read)
      exact .integer m
    | fraction m e =>
      rw [integer?] at read
      split at read
      · rename_i k whole
        obtain rfl := Option.some.inj (Except.ok.inj read)
        exact .fraction ((wholeValue?_eq_some_iff m e k).mp whole)
      · exact nomatch read
    | text t =>
      rw [integer?] at read
      split at read
      · rename_i k spelled
        obtain rfl := Option.some.inj (Except.ok.inj read)
        exact .text ((Numeral.readSetting?_eq_some_iff t k).mp spelled)
      · exact nomatch read
  · rintro (b | n | whole | spelled)
    · rfl
    · rfl
    · rw [integer?, (wholeValue?_eq_some_iff _ _ n).mpr whole]
    · rw [integer?, (Numeral.readSetting?_eq_some_iff _ n).mpr spelled]

theorem integer?_eq_none_iff (s : Setting) : s.integer? = .ok none ↔ s = .null := by
  cases s with
  | null => simp [integer?]
  | fraction m e => cases whole : wholeValue? m e <;> simp [integer?, whole]
  | text t => cases spelled : Numeral.readSetting? t <;> simp [integer?, spelled]
  | _ => simp [integer?]

end Setting

namespace Options

/-- What comes of a setting. -/
inductive Reads (s : Setting) : Except Reason Options → Prop
  | unset (isNull : s = .null) : Reads s (.ok none)
  | accepted {o : Options} {n : Int} (denotes : s.Denotes n) (positive : 1 ≤ n) (width : o.columnWidth = some n.toNat) :
      Reads s (.ok o)
  | rejected {reason : Reason} (rejected : s.Rejected) : Reads s (.error reason)

theorem reads_ofSetting (s : Setting) : Reads s (ofSetting s) := by
  rw [ofSetting]
  cases read : s.integer? with
  | error reason =>
    refine .rejected ⟨?_, fun n denotes => ?_⟩
    · rintro rfl
      exact nomatch read
    · exact nomatch read.symm.trans ((s.integer?_eq_some_iff n).mpr denotes)
  | ok n? =>
    cases n? with
    | none => exact .unset (s.integer?_eq_none_iff.mp read)
    | some n =>
      have denotes := (s.integer?_eq_some_iff n).mp read
      change Reads s (ofWidth n)
      rw [ofWidth]
      split
      · rename_i positive
        exact .accepted denotes positive rfl
      · rename_i low
        refine .rejected ⟨?_, fun m denotes' => ?_⟩
        · rintro rfl
          exact nomatch read
        · rw [← s.integer?_eq_some_iff, read] at denotes'
          obtain rfl := Option.some.inj (Except.ok.inj denotes')
          exact Int.not_lt.mp low

theorem ofSetting_error_iff (s : Setting) : (∃ reason, ofSetting s = .error reason) ↔ s.Rejected := by
  have reads := reads_ofSetting s
  generalize ofSetting s = result at reads ⊢
  cases reads with
  | unset isNull => simp [isNull, Setting.Rejected]
  | rejected rejected => simp [rejected]
  | @accepted o n denotes positive width =>
    simp only [reduceCtorEq, exists_false, false_iff]
    exact fun rejected => absurd (rejected.2 n denotes) (by omega)

instance (s : Setting) : Decidable s.Rejected :=
  match read : ofSetting s with
  | .ok _ => .isFalse fun rejected => by
    obtain ⟨reason, failed⟩ := (ofSetting_error_iff s).mpr rejected
    exact nomatch read.symm.trans failed
  | .error reason => .isTrue ((ofSetting_error_iff s).mp ⟨reason, read⟩)

/-- The names of all settings that are not accepted: the column budget if it is given and rejected, then those that are not
known. -/
def badFields (settings : List (Text × Setting)) : List Text :=
  (if ∃ s ∈ settings.lookup widthName, s.Rejected then [widthName] else []) ++
    (settings.map Prod.fst).filter (· ≠ widthName)

theorem names_unknown (settings : List (Text × Setting)) :
    ((settings.filter (·.1 ≠ widthName)).map fun s => (⟨s.1, .unknownName⟩ : Problem)).map Problem.name =
      (settings.map Prod.fst).filter (· ≠ widthName) := by
  rw [List.map_map, List.filter_map]
  rfl

theorem rejected_getD (s? : Option Setting) : (s?.getD .null).Rejected ↔ ∃ s ∈ s?, s.Rejected := by
  cases s? with
  | some s => simp
  | none => simp [Setting.Rejected]

/-- What comes of the column budget among the settings. -/
inductive Budget (settings : List (Text × Setting)) : Option Nat → Prop
  | unset (null : ∀ s ∈ settings.lookup widthName, s = .null) : Budget settings .none
  | given {s : Setting} {n : Nat} (here : s ∈ settings.lookup widthName) (denotes : s.Denotes n) (positive : 1 ≤ n) :
      Budget settings (some n)

end Options

namespace Problem

/-- The name that a problem is reported under. -/
def label (name : Text) : Text := if name = [] then "config".toList else name

def countLine (count : Nat) : Text := "Invalid reflink options (".toList ++ Text.ofNat count ++ "):".toList

def bullet (entry : Text) : Text := ['\n'] ++ ("  - ".toList ++ entry)

theorem label_prefix_entry (p : Problem) : label p.name ++ [':', ' '] <+: p.entry := by
  rw [entry, label]
  cases p.name <;> exact List.prefix_append _ _

theorem summary_eq {entries : List Text} (filled : entries ≠ []) :
    summary entries = countLine entries.length ++ entries.flatMap bullet := by
  obtain ⟨first, rest, rfl⟩ := List.exists_cons_of_ne_nil filled
  have lines := Text.append_joinWith_cons ['\n'] ("  - ".toList ++ first) (rest.map ("  - ".toList ++ ·))
  rw [← List.map_cons (f := ("  - ".toList ++ ·)), List.flatMap_map] at lines
  unfold bullet countLine summary
  rw [← lines]
  simp

end Problem

namespace Options

/-- A report on settings that are not accepted: there is one entry for each, in their order, which begins with its name, and
the message has a line with their number and then one for each entry. -/
structure Reported (bad : List Text) (problems : List Problem) : Prop where
  names : problems.map Problem.name = bad
  entries : List.Forall₂ (fun name entry => Problem.label name ++ [':', ' '] <+: entry) bad (problems.map Problem.entry)
  summary : Problem.summary (problems.map Problem.entry) =
    Problem.countLine bad.length ++ (problems.map Problem.entry).flatMap Problem.bullet

theorem reported_of_names {bad : List Text} {problems : List Problem} (names : problems.map Problem.name = bad)
    (filled : bad ≠ []) : Reported bad problems := by
  subst names
  refine ⟨rfl, ?_, ?_⟩
  · rw [List.forall₂_map_left_iff, List.forall₂_map_right_iff, List.forall₂_same]
    exact fun p _ => p.label_prefix_entry
  · rw [Problem.summary_eq (by simpa using filled), List.length_map, List.length_map]

/-- What makes of settings options or a report once the column budget is accepted. -/
theorem known_or_reported {settings : List (Text × Setting)} {options : Options}
    (accepted : ¬∃ s ∈ settings.lookup widthName, s.Rejected) (budget : Budget settings options.columnWidth) :
    let unknown := (settings.filter (·.1 ≠ widthName)).map fun s => (⟨s.1, .unknownName⟩ : Problem)
    match (if unknown.isEmpty then .ok options else .error unknown : Except (List Problem) Options) with
    | .ok options => badFields settings = [] ∧ Budget settings options.columnWidth
    | .error problems => badFields settings ≠ [] ∧ Reported (badFields settings) problems := by
  intro unknown
  -- With the column budget accepted only the names that are not known are bad.
  have names : unknown.map Problem.name = badFields settings := by
    rw [badFields, if_neg accepted, List.nil_append]
    exact names_unknown settings
  split
  · rename_i options' made
    split at made
    · rename_i known
      rw [← Except.ok.inj made, ← names, List.isEmpty_iff.mp known]
      exact ⟨rfl, budget⟩
    · exact nomatch made
  · rename_i problems failed
    split at failed
    · exact nomatch failed
    · rename_i unknown
      have filled : badFields settings ≠ [] := by
        rw [← names]
        simpa using unknown
      rw [← Except.error.inj failed]
      exact ⟨filled, reported_of_names names filled⟩

/-- Settings make options exactly if none of them is bad: the column budget, where it is given, is a positive integer or
left open, and there are no others. The options have that budget; otherwise all that is bad is reported. A text is read as an
integer exactly if it spells one. -/
theorem ofSettings_complete (settings : List (Text × Setting)) :
    (match ofSettings settings with
      | .ok options => badFields settings = [] ∧ Budget settings options.columnWidth
      | .error problems => badFields settings ≠ [] ∧ Reported (badFields settings) problems) ∧
    ∀ t, (∃ n, (Setting.text t).integer? = .ok (some n)) ↔ ∃ n, Numeral.Spells t n := by
  refine ⟨?_, fun t => exists_congr fun n => ?_⟩
  · have reads := reads_ofSetting ((settings.lookup widthName).getD .null)
    have rejected := rejected_getD (settings.lookup widthName)
    rw [ofSettings]
    generalize ofSetting ((settings.lookup widthName).getD .null) = result at reads ⊢
    cases reads with
    | rejected bad =>
      have filled : badFields settings ≠ [] := by
        rw [badFields, if_pos (rejected.mp bad)]
        exact List.cons_ne_nil _ _
      refine ⟨filled, reported_of_names ?_ filled⟩
      rw [badFields, if_pos (rejected.mp bad), List.map_cons, names_unknown]
      rfl
    | unset isNull =>
      refine known_or_reported (fun bad => (rejected.mpr bad).1 isNull) (.unset fun s here => ?_)
      rw [here] at isNull
      exact isNull
    | @accepted options n denotes positive width =>
      refine known_or_reported (fun bad => absurd ((rejected.mpr bad).2 n denotes) (by omega)) ?_
      rw [width]
      cases given : settings.lookup widthName with
      | none =>
        rw [given] at denotes
        exact nomatch denotes
      | some s =>
        rw [given] at denotes
        have same : (n.toNat : Int) = n := Int.toNat_of_nonneg (by omega)
        exact .given given (same.symm ▸ denotes) (by omega)
  · rw [Setting.integer?_eq_some_iff]
    refine ⟨fun denotes => ?_, .text⟩
    cases denotes with
    | text spelled => exact spelled

example : (match ofSettings [([], .null), (widthName, .text " -0".toList), ("x".toList, .flag true)] with
    | .ok _ => []
    | .error problems => problems.map Problem.name) = [widthName, [], "x".toList] := by decide

end Options
end MarkdownLinks
