import MarkdownLinks.Proofs.Text.Words

/-!
What the normal form of a text says: its words, in order, and nothing else. How the words are laid out with whitespace does
not show in it, so two texts have one normal form exactly if they have the same words.
-/

namespace MarkdownLinks.Text

/-! ### Words laid out -/

/-- A text of these words, in order, with whitespace between them and maybe at the ends. -/
inductive LaidOut : List Text → Text → Prop
  | blank {s : Text} (blank : s.isBlank) : LaidOut [] s
  | word {s w t : Text} {ws : List Text} (blank : s.isBlank) (solid : Solid w)
      (apart : ∀ c ∈ t.head?, isWhitespace c) (rest : LaidOut ws t) : LaidOut (w :: ws) (s ++ w ++ t)

theorem isBlank_cons {c : Char} {s : Text} : isBlank (c :: s) ↔ isWhitespace c ∧ s.isBlank := by
  simp [isBlank]

theorem LaidOut.cons {ws : List Text} {t : Text} (laid : LaidOut ws t) {c : Char} (space : isWhitespace c) :
    LaidOut ws (c :: t) := by
  cases laid with
  | blank blank => exact .blank (isBlank_cons.mpr ⟨space, blank⟩)
  | word blank solid apart rest => exact .word (isBlank_cons.mpr ⟨space, blank⟩) solid apart rest

theorem words_blank_append {s : Text} (blank : s.isBlank) (t : Text) : words (s ++ t) = words t := by
  induction s with
  | nil => rfl
  | cons c s ih =>
    obtain ⟨space, blank⟩ := isBlank_cons.mp blank
    rw [List.cons_append, words_cons_space space, ih blank]

/-- Whitespace ends the word before it. -/
theorem words_go_gap {s : Text} (filled : s ≠ []) (blank : s.isBlank) (word t : Text) :
    words.go word (s ++ t) = words.flush word ++ words t := by
  obtain ⟨c, s, rfl⟩ := List.exists_cons_of_ne_nil filled
  obtain ⟨space, blank⟩ := isBlank_cons.mp blank
  rw [List.cons_append, words_go_cons, if_pos space, words_blank_append blank]

theorem LaidOut.words_eq {ws : List Text} {t : Text} (laid : LaidOut ws t) : words t = ws := by
  induction laid with
  | @blank s blank =>
    have wordless := words_blank_append blank []
    rwa [List.append_nil] at wordless
  | @word s w t ws blank solid apart rest ih =>
    rw [List.append_assoc, words_blank_append blank]
    cases t with
    | nil => rw [List.append_nil, solid.words, ← ih]; rfl
    | cons c t =>
      have space : isWhitespace c := apart c rfl
      rw [words_append_space space, solid.words, ← ih, words_cons_space space]
      rfl

/-- Letters in front of whitespace, or of nothing, are a word of their own. -/
theorem LaidOut.flush {ws : List Text} {t : Text} (laid : LaidOut ws t) (apart : ∀ c ∈ t.head?, isWhitespace c)
    {word : Text} (letters : ∀ c ∈ word, isWhitespace c = false) :
    LaidOut (words.flush word ++ ws) (word.reverse ++ t) := by
  by_cases empty : word = []
  · rw [empty]
    exact laid
  · have solid : Solid word := ⟨empty, letters⟩
    rw [solid.flush]
    exact .word (s := []) rfl solid.reverse apart laid

theorem laidOut_go (t : Text) {word : Text} (letters : ∀ c ∈ word, isWhitespace c = false) :
    LaidOut (words.go word t) (word.reverse ++ t) := by
  induction t generalizing word with
  | nil =>
    have alone := LaidOut.flush (.blank (s := []) rfl) (fun c absent => nomatch absent) letters
    rwa [List.append_nil] at alone
  | cons c t ih =>
    rw [words_go_cons]
    split
    · rename_i space
      have rest : LaidOut (words t) t := @ih [] fun d absent => absurd absent List.not_mem_nil
      exact (rest.cons space).flush (fun d head => Option.some.inj head ▸ space) letters
    · rename_i letter
      have longer := ih (List.forall_mem_cons.mpr ⟨by simpa using letter, letters⟩)
      rwa [List.reverse_cons, List.append_assoc] at longer

/-- The words of a text are those that it is laid out from. -/
theorem words_eq_iff {t : Text} {ws : List Text} : words t = ws ↔ LaidOut ws t := by
  refine ⟨?_, LaidOut.words_eq⟩
  rintro rfl
  exact laidOut_go t fun c absent => absurd absent List.not_mem_nil

/-! ### The normal form -/

theorem words_joinWith_space {ws : List Text} (solid : ∀ w ∈ ws, Solid w) : words (joinWith [' '] ws) = ws := by
  rw [words_joinWith isWhitespace_space, flatMap_words solid]

theorem words_normalize (t : Text) : words t.normalize = words t := by
  rw [normalize_eq_joinWith_words, words_joinWith_space fun w => solid_of_mem_words]

theorem normalize_eq_iff {t u : Text} : t.normalize = u.normalize ↔ t.words = u.words := by
  constructor
  · intro same
    rw [← words_normalize t, same, words_normalize]
  · intro same
    rw [normalize_eq_joinWith_words, same, normalize_eq_joinWith_words]

theorem words_append_gap {s : Text} (filled : s ≠ []) (blank : s.isBlank) (t u : Text) :
    words (t ++ s ++ u) = words t ++ words u := by
  obtain ⟨c, s, rfl⟩ := List.exists_cons_of_ne_nil filled
  obtain ⟨space, blank⟩ := isBlank_cons.mp blank
  rw [List.append_assoc, List.cons_append, words_append_space space, words_blank_append blank]

/-- What there is to say of the normal form `n` of a text `t`. It is the words of the text with single spaces between, and its
own normal form; it is that of all texts with the same words; and it may take the place of its text in front of whitespace. -/
structure NormalForm (t n : Text) : Prop where
  laidOut : ∀ ws, LaidOut ws t ↔ t.words = ws
  words : n = joinWith [' '] t.words
  again : n.normalize = n
  same : ∀ u : Text, n = u.normalize ↔ t.words = u.words
  append : ∀ gap u : Text, gap ≠ [] → gap.isBlank → (t ++ gap ++ u).normalize = (n ++ [' '] ++ u.normalize).normalize

theorem normalForm (t : Text) : NormalForm t t.normalize := by
  refine ⟨fun ws => words_eq_iff.symm, normalize_eq_joinWith_words t, ?_, fun u => normalize_eq_iff, ?_⟩
  · rw [normalize_eq_iff, words_normalize]
  · intro gap u filled blank
    rw [normalize_eq_iff, words_append_gap filled blank, words_append_gap (List.cons_ne_nil ' ' []) rfl, words_normalize,
      words_normalize]

/-! ### Words laid out anew -/

/-- The same text up to whitespace: where one of the two has some, so has the other, but maybe more or less or of another
kind. -/
inductive Relaid : Text → Text → Prop
  | nil : Relaid [] []
  | same (c : Char) {t u : Text} (rest : Relaid t u) : Relaid (c :: t) (c :: u)
  | gap {r s t u : Text} (filled : r ≠ []) (filled' : s ≠ []) (blank : r.isBlank) (blank' : s.isBlank)
      (rest : Relaid t u) : Relaid (r ++ t) (s ++ u)

namespace Relaid

theorem refl (t : Text) : Relaid t t := by
  induction t with
  | nil => exact .nil
  | cons c t ih => exact .same c ih

theorem append {t t' u u' : Text} (first : Relaid t t') (second : Relaid u u') : Relaid (t ++ u) (t' ++ u') := by
  induction first with
  | nil => exact second
  | same c rest ih => exact .same c ih
  | gap filled filled' blank blank' rest ih =>
    rw [List.append_assoc, List.append_assoc]
    exact .gap filled filled' blank blank' ih

theorem words_go {t u : Text} (relaid : Relaid t u) (word : Text) : words.go word t = words.go word u := by
  induction relaid generalizing word with
  | nil => rfl
  | same c rest ih => rw [words_go_cons, words_go_cons, ih, Text.words, Text.words, ih]
  | gap filled filled' blank blank' rest ih =>
    rw [words_go_gap filled blank, words_go_gap filled' blank', Text.words, Text.words, ih]

theorem words {t u : Text} (relaid : Relaid t u) : t.words = u.words := relaid.words_go []

end Relaid

end MarkdownLinks.Text
