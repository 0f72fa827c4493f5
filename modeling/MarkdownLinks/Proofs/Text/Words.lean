import Mathlib.Data.List.Nodup
import Mathlib.Data.List.TakeWhile
import MarkdownLinks.Text.Whitespace
import MarkdownLinks.Text.Wrap

/-!
Words, whitespace and the normal form. Any whitespace character keeps words apart as well as any other, the normal form
of a text is its words with single spaces between, and filling lines keeps the words.
-/

namespace MarkdownLinks.Text

/-- A text that is one word. -/
def Solid (w : Text) : Prop := w ≠ [] ∧ ∀ c ∈ w, isWhitespace c = false

theorem solid_singleton {c : Char} (letter : isWhitespace c = false) : Solid [c] :=
  ⟨List.cons_ne_nil c [], List.forall_mem_singleton.mpr letter⟩

theorem Solid.cons {w : Text} (solid : Solid w) {c : Char} (letter : isWhitespace c = false) : Solid (c :: w) :=
  ⟨List.cons_ne_nil c w, List.forall_mem_cons.mpr ⟨letter, solid.2⟩⟩

theorem Solid.reverse {w : Text} (solid : Solid w) : Solid w.reverse :=
  ⟨by simpa using solid.1, fun c inside => solid.2 c (List.mem_reverse.mp inside)⟩

theorem Solid.flush {w : Text} (solid : Solid w) : words.flush w = [w.reverse] := if_neg (by simpa using solid.1)

theorem isWhitespace_space : isWhitespace ' ' = true := rfl

theorem isWhitespace_lineFeed : isWhitespace '\n' = true := rfl

/-! ### Words -/

theorem words_go_nil (word : Text) : words.go word [] = words.flush word := rfl

theorem words_go_cons (word : Text) (c : Char) (t : Text) : words.go word (c :: t) =
    if isWhitespace c then words.flush word ++ words t else words.go (c :: word) t := rfl

theorem words_go_space {c : Char} (space : isWhitespace c) (word t u : Text) :
    words.go word (t ++ c :: u) = words.go word t ++ words u := by
  induction t generalizing word with
  | nil => rw [List.nil_append, words_go_cons, if_pos space, words_go_nil]
  | cons d t ih =>
    have rest : words (t ++ c :: u) = words t ++ words u := ih []
    rw [List.cons_append, words_go_cons, words_go_cons, ih, rest]
    split
    · rw [List.append_assoc]
    · rfl

theorem words_append_space {c : Char} (space : isWhitespace c) (t u : Text) :
    words (t ++ c :: u) = words t ++ words u := words_go_space space [] t u

theorem words_cons_space {c : Char} (space : isWhitespace c) (t : Text) : words (c :: t) = words t :=
  words_append_space space [] t

theorem words_go_solid {w : Text} (plain : ∀ c ∈ w, isWhitespace c = false) (word t : Text) :
    words.go word (w ++ t) = words.go (w.reverse ++ word) t := by
  induction w generalizing word with
  | nil => rfl
  | cons c w ih =>
    have letter := plain c List.mem_cons_self
    rw [List.cons_append, words_go_cons, if_neg (by simp [letter]), ih fun d inside => plain d (List.mem_cons_of_mem c inside)]
    simp

theorem Solid.words {w : Text} (solid : Solid w) : words w = [w] := by
  have all := words_go_solid solid.2 [] []
  rw [List.append_nil, List.append_nil] at all
  rw [Text.words, all, words_go_nil, solid.reverse.flush, List.reverse_reverse]

theorem flush_solid {word : Text} (letters : ∀ c ∈ word, isWhitespace c = false) :
    ∀ w ∈ words.flush word, Solid w := by
  intro w inside
  unfold words.flush at inside
  split at inside
  · exact absurd inside List.not_mem_nil
  · rename_i filled
    rw [List.mem_singleton.mp inside]
    exact ⟨by simpa using filled, fun c member => letters c (List.mem_reverse.mp member)⟩

theorem words_go_all_solid (t : Text) {word : Text} (letters : ∀ c ∈ word, isWhitespace c = false) :
    ∀ w ∈ words.go word t, Solid w := by
  induction t generalizing word with
  | nil => exact flush_solid letters
  | cons c t ih =>
    intro w inside
    rw [words_go_cons] at inside
    split at inside
    · rcases List.mem_append.mp inside with first | later
      · exact flush_solid letters w first
      · exact ih (fun _ absent => absurd absent List.not_mem_nil) w later
    · rename_i letter
      exact ih (List.forall_mem_cons.mpr ⟨by simpa using letter, letters⟩) w inside

theorem solid_of_mem_words {t w : Text} (inside : w ∈ words t) : Solid w :=
  words_go_all_solid t (fun _ absent => absurd absent List.not_mem_nil) w inside

theorem joinWith_cons (sep t u : Text) (ts : List Text) :
    joinWith sep (t :: u :: ts) = t ++ sep ++ joinWith sep (u :: ts) := rfl

theorem append_joinWith_cons (sep t : Text) (ts : List Text) :
    sep ++ joinWith sep (t :: ts) = (t :: ts).flatMap (sep ++ ·) := by
  induction ts generalizing t with
  | nil => simp [joinWith]
  | cons u ts ih => rw [List.flatMap_cons, ← ih u, joinWith_cons, List.append_assoc, List.append_assoc]

/-- Texts joined by a whitespace character have their words one after the other. -/
theorem words_joinWith {c : Char} (space : isWhitespace c) (ts : List Text) :
    words (joinWith [c] ts) = ts.flatMap words := by
  induction ts with
  | nil => rfl
  | cons t ts ih =>
    cases ts with
    | nil => simp [joinWith]
    | cons u ts =>
      rw [joinWith_cons, List.append_assoc, List.singleton_append, words_append_space space, ih, List.flatMap_cons]
      rfl

theorem flatMap_words {ws : List Text} (solid : ∀ w ∈ ws, Solid w) : ws.flatMap words = ws := by
  calc
    ws.flatMap words = ws.flatMap fun w => [w] := List.flatMap_congr fun w inside => (solid w inside).words
    _ = ws := List.flatMap_singleton' ws

/-! ### The normal form -/

theorem collapse_go_cons (inRun : Bool) (c : Char) (t : Text) : collapse.go inRun (c :: t) =
    if isWhitespace c then (if inRun then collapse.go true t else ' ' :: collapse.go true t)
    else c :: collapse.go false t := rfl

theorem stripRight_append {t u : Text} (shown : stripRight u ≠ []) : stripRight (t ++ u) = t ++ stripRight u := by
  unfold stripRight dropWhileEnd at *
  have filled : u.reverse.dropWhile isWhitespace ≠ [] := by simpa using shown
  rw [List.reverse_append, List.dropWhile_append, if_neg (by simpa using filled), List.reverse_append,
    List.reverse_reverse]

theorem stripRight_append_blank {t u : Text} (blank : stripRight u = []) : stripRight (t ++ u) = stripRight t := by
  unfold stripRight dropWhileEnd at *
  have empty : u.reverse.dropWhile isWhitespace = [] := by simpa using blank
  rw [List.reverse_append, List.dropWhile_append, if_pos (by simpa using empty)]

theorem Solid.stripRight {w : Text} (solid : Solid w) : stripRight w = w := by
  have stays : w.reverse.dropWhile isWhitespace = w.reverse := by
    rw [List.dropWhile_eq_self_iff]
    intro filled
    rw [solid.reverse.2 _ (List.getElem_mem filled)]
    exact Bool.false_ne_true
  rw [Text.stripRight, dropWhileEnd, stays, List.reverse_reverse]

theorem joinWith_eq_nil_iff {ws : List Text} (solid : ∀ w ∈ ws, Solid w) : joinWith [' '] ws = [] ↔ ws = [] := by
  rcases ws with _ | ⟨w, _ | ⟨v, ws⟩⟩
  · simp [joinWith]
  · have filled := (solid w List.mem_cons_self).1
    simp [joinWith, filled]
  · simp [joinWith]

/-- What is collapsed, behind the letters of a word or behind a space, is the words with single spaces between, up to
whitespace at the end. -/
theorem stripRight_collapse_go (t : Text) :
    (∀ word, Solid word → stripRight (word.reverse ++ collapse.go false t) = joinWith [' '] (words.go word t)) ∧
      stripRight (collapse.go true t) = joinWith [' '] (words t) := by
  induction t with
  | nil =>
    refine ⟨fun word solid => ?_, rfl⟩
    rw [collapse.go, List.append_nil, solid.reverse.stripRight, words_go_nil, solid.flush, joinWith]
  | cons c t ih =>
    obtain ⟨behindLetters, behindSpace⟩ := ih
    cases space : isWhitespace c with
    | false =>
      have letter : isWhitespace c ≠ true := by simp [space]
      constructor
      · intro word solid
        have longer := behindLetters (c :: word) (solid.cons space)
        rw [collapse_go_cons, words_go_cons, if_neg letter, if_neg letter, ← longer]
        simp
      · rw [collapse_go_cons, words, words_go_cons, if_neg letter, if_neg letter,
          ← behindLetters [c] (solid_singleton space)]
        rfl
    | true =>
      refine ⟨fun word solid => ?_, ?_⟩
      · rw [collapse_go_cons, words_go_cons, if_pos space, if_pos space, if_neg Bool.false_ne_true, solid.flush]
        have own := solid.reverse.stripRight
        cases later : words t with
        | nil =>
          -- Nothing but whitespace follows, and goes.
          have blank : stripRight (collapse.go true t) = [] := by rw [behindSpace, later, joinWith]
          have gap : stripRight (' ' :: collapse.go true t) = [] := stripRight_append_blank (t := [' ']) blank
          rw [stripRight_append_blank gap, own, List.append_nil, joinWith]
        | cons w ws =>
          have shown : stripRight (collapse.go true t) ≠ [] := by
            rw [behindSpace, ne_eq, joinWith_eq_nil_iff fun w => solid_of_mem_words, later]
            exact List.cons_ne_nil w ws
          have gap : stripRight (' ' :: collapse.go true t) = ' ' :: stripRight (collapse.go true t) :=
            stripRight_append (t := [' ']) shown
          rw [stripRight_append (by rw [gap]; exact List.cons_ne_nil _ _), gap, behindSpace, later]
          simp [joinWith_cons]
      · rw [collapse_go_cons, if_pos space, if_pos rfl, words_cons_space space, behindSpace]

theorem stripLeft_collapse_go (t : Text) : stripLeft (collapse.go true t) = collapse.go true t := by
  induction t with
  | nil => rfl
  | cons c t ih =>
    rw [collapse_go_cons]
    split
    · exact ih
    · rename_i letter
      exact List.dropWhile_cons_of_neg letter

/-- The normal form of a text is its words with single spaces between. -/
theorem normalize_eq_joinWith_words (t : Text) : t.normalize = joinWith [' '] (words t) := by
  unfold normalize strip collapse
  cases t with
  | nil => rfl
  | cons c t =>
    rw [collapse_go_cons]
    split
    · rename_i space
      have lead : stripLeft (' ' :: collapse.go true t) = collapse.go true t :=
        (List.dropWhile_cons_of_pos isWhitespace_space).trans (stripLeft_collapse_go t)
      rw [if_neg Bool.false_ne_true, lead, words_cons_space space]
      exact (stripRight_collapse_go t).2
    · rename_i letter
      have lead : stripLeft (c :: collapse.go false t) = c :: collapse.go false t := List.dropWhile_cons_of_neg letter
      rw [lead, words, words_go_cons, if_neg letter]
      exact (stripRight_collapse_go t).1 [c] (solid_singleton (by simpa using letter))

/-! ### Filling lines -/

theorem fillLines_go_flatten (width : Nat) (line : List Text) (length : Nat) (ws : List Text) :
    (fillLines.go width line length ws).flatten = line.reverse ++ ws := by
  induction ws generalizing line length with
  | nil => simp [fillLines.go]
  | cons w ws ih =>
    rw [fillLines.go]
    split
    · rw [ih]
      simp
    · rw [List.flatten_cons, ih]
      simp

theorem fillLines_flatten (width : Nat) (ws : List Text) : (fillLines width ws).flatten = ws := by
  cases ws with
  | nil => rfl
  | cons w ws => exact fillLines_go_flatten width [w] w.length ws

/-- Filled lines have the words that they were filled with. -/
theorem words_wrap (width : Nat) {ws : List Text} (solid : ∀ w ∈ ws, Solid w) :
    words (joinWith ['\n'] (wrap width ws)) = ws := by
  rw [words_joinWith isWhitespace_lineFeed, wrap, List.flatMap_map]
  calc
    (fillLines width ws).flatMap (fun line => words (joinWith [' '] line))
      = (fillLines width ws).flatMap (·.flatMap words) := by simp only [words_joinWith isWhitespace_space]
    _ = (fillLines width ws).flatten.flatMap words := by rw [← List.flatMap_id, List.flatMap_assoc]; rfl
    _ = ws := by rw [fillLines_flatten, flatMap_words solid]

end MarkdownLinks.Text
