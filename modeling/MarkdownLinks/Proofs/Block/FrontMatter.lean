import Mathlib.Data.List.TakeWhile
import MarkdownLinks.Document
import MarkdownLinks.Proofs.Text.Lines

/-!
Front matter and the lines of a text. A text has front matter if it starts with a fence and has another one of the kind
below. The front matter ends with the first of these, unless that is right below the opening one: then it goes on to the
next one, if there is a next one.
-/

namespace MarkdownLinks

/-- A text as it is read, with null characters replaced. -/
def Text.withoutNulls (t : Text) : Text := t.map fun c => if c = '\x00' then '\uFFFD' else c

def FrontMatterKind.fence : FrontMatterKind → Text
  | .yaml => ['-', '-', '-']
  | .toml => ['+', '+', '+']

/-- A line that opens or closes front matter: a fence with nothing but blanks behind it. -/
def FrontMatterKind.IsFence (kind : FrontMatterKind) (line : Text) : Prop :=
  ∃ blanks stop, line = kind.fence ++ blanks ++ stop ∧ (∀ c ∈ blanks, isBlankChar c) ∧ (stop = [] ∨ stop = ['\n'])

theorem FrontMatterKind.IsFence.kind_eq {kind kind' : FrontMatterKind} {line : Text} (fence : kind.IsFence line)
    (fence' : kind'.IsFence line) : kind = kind' := by
  obtain ⟨_, _, rfl, -⟩ := fence
  obtain ⟨_, _, same, -⟩ := fence'
  cases kind <;> cases kind' <;> first | rfl | exact absurd (List.cons.inj same).1 (by decide)

namespace Block

/-! ### Fences -/

theorem linesOf_eq_lines {fuel : Nat} {t : Text} (enough : t.length < fuel) : linesOf fuel t = t.lines := by
  induction fuel generalizing t with
  | zero => exact absurd enough (Nat.not_lt_zero _)
  | succ fuel ih =>
    cases t with
    | nil => rfl
    | cons c t =>
      have shorter : (Text.splitFirstLine (c :: t)).2.length < fuel :=
        (Text.splitFirstLine_rest_lt c t).trans_le (Nat.lt_succ_iff.mp enough)
      rw [Text.lines_eq_cons (List.cons_ne_nil c t), ← ih shorter]
      rfl

theorem isFrontMatterFence_iff {kind : FrontMatterKind} {line : Text} (isLine : line.IsLine) :
    isFrontMatterFence kind.fence line = true ↔ kind.IsFence line := by
  constructor
  · intro fence
    rw [isFrontMatterFence, Bool.and_eq_true] at fence
    obtain ⟨starts, ends⟩ := fence
    obtain ⟨rest, rfl⟩ := List.isPrefixOf_iff_prefix.mp starts
    rw [List.drop_left] at ends
    refine ⟨rest.takeWhile isBlankChar, rest.dropWhile isBlankChar, ?_, ?_, ?_⟩
    · rw [List.append_assoc, List.takeWhile_append_dropWhile]
    · exact fun c inside => List.mem_takeWhile_imp inside
    · cases stop : rest.dropWhile isBlankChar with
      | nil => exact Or.inl rfl
      | cons d after =>
        rw [stop] at ends
        obtain rfl : d = '\n' := by simpa [atLineEnd] using ends
        have whole : kind.fence ++ rest = (kind.fence ++ rest.takeWhile isBlankChar) ++ '\n' :: after := by
          rw [List.append_assoc, ← stop, List.takeWhile_append_dropWhile]
        rw [whole] at isLine
        rw [isLine.eq_nil_of_feed]
        exact Or.inr rfl
  · rintro ⟨blanks, stop, rfl, blank, ends⟩
    have left : ((kind.fence ++ blanks ++ stop).drop kind.fence.length).dropWhile isBlankChar = stop := by
      rw [List.append_assoc, List.drop_left, List.dropWhile_append_of_pos blank]
      rcases ends with rfl | rfl <;> rfl
    rw [isFrontMatterFence, left, Bool.and_eq_true]
    refine ⟨List.isPrefixOf_iff_prefix.mpr ⟨blanks ++ stop, (List.append_assoc _ _ _).symm⟩, ?_⟩
    rcases ends with rfl | rfl <;> rfl

theorem exists_first {α : Type} {p : α → Bool} {as : List α} {a : α} (inside : a ∈ as) (holds : p a) :
    ∃ before b after, as = before ++ b :: after ∧ p b ∧ ∀ c ∈ before, ¬p c := by
  have found := Option.some_get (List.find?_isSome.mpr ⟨a, inside, holds⟩)
  obtain ⟨here, before, after, split, earlier⟩ := List.find?_eq_some_iff_append.mp found.symm
  exact ⟨before, _, after, split, here, fun c among => by simpa using earlier c among⟩

/-- What a fence encloses together with the fences, in a text that is a list of lines. -/
def enclosed? (fence : Text) : List Text → Option Text
  | first :: second :: lines =>
    let later := lines.takeWhile fun line => !isFrontMatterFence fence line
    if !isFrontMatterFence fence first then none
    else if later.length < lines.length then some (first ++ second ++ (lines.take (later.length + 1)).flatten)
    else if isFrontMatterFence fence second then some (first ++ second)
    else none
  | _ => none

theorem frontMatter?_eq (t : Text) : frontMatter? t =
    ((enclosed? FrontMatterKind.yaml.fence t.lines).map (·, .yaml) <|>
      (enclosed? FrontMatterKind.toml.fence t.lines).map (·, .toml)) := by
  rw [← linesOf_eq_lines (Nat.lt_succ_self t.length)]
  rfl

section Enclosed

variable {fence first second last : Text} {before after later : List Text}

theorem enclosed?_of_last (opening : isFrontMatterFence fence first)
    (between : ∀ line ∈ before, ¬isFrontMatterFence fence line) (closing : isFrontMatterFence fence last) :
    enclosed? fence (first :: second :: (before ++ last :: after)) = some (first ++ second ++ before.flatten ++ last) := by
  have stops : (before ++ last :: after).takeWhile (fun line => !isFrontMatterFence fence line) = before := by
    rw [List.takeWhile_append_of_pos fun line inside => by simpa using between line inside,
      List.takeWhile_cons_of_neg (by simp [closing]), List.append_nil]
  have taken : (before ++ last :: after).take (before.length + 1) = before ++ [last] := by
    rw [List.append_cons]
    exact List.take_left' (by simp)
  simp only [enclosed?, stops, taken]
  rw [if_neg (by simp [opening]), if_pos (by simp)]
  simp

theorem enclosed?_of_none (opening : isFrontMatterFence fence first)
    (unclosed : ∀ line ∈ later, ¬isFrontMatterFence fence line) :
    enclosed? fence (first :: second :: later) =
      if isFrontMatterFence fence second then some (first ++ second) else none := by
  have all : later.takeWhile (fun line => !isFrontMatterFence fence line) = later :=
    List.takeWhile_eq_self_iff.mpr fun line inside => by simpa using unclosed line inside
  simp only [enclosed?, all]
  rw [if_neg (by simp [opening]), if_neg (Nat.lt_irrefl _)]

theorem enclosed?_of_not_opening (other : ¬isFrontMatterFence fence first) : enclosed? fence (first :: later) = none := by
  cases later with
  | nil => rfl
  | cons second later =>
    rw [enclosed?]
    simp [other]

/-- Front matter ends with its first closing fence, unless this is the second line and there are others. -/
theorem enclosed?_of_first (opening : isFrontMatterFence fence first)
    (between : ∀ line ∈ before, ¬isFrontMatterFence fence line) (closing : isFrontMatterFence fence last)
    (alone : before = [] → ∀ line ∈ after, ¬isFrontMatterFence fence line) :
    enclosed? fence (first :: (before ++ last :: after)) = some (first ++ before.flatten ++ last) := by
  cases before with
  | nil =>
    rw [List.nil_append, enclosed?_of_none opening (alone rfl), if_pos closing]
    simp
  | cons second before =>
    rw [List.cons_append, enclosed?_of_last opening (fun line inside => between line (List.mem_cons_of_mem _ inside)) closing]
    simp

theorem enclosed?_eq_none (opening : isFrontMatterFence fence first) :
    enclosed? fence (first :: later) = none ↔ ∀ line ∈ later, ¬isFrontMatterFence fence line := by
  constructor
  · intro missing line inside closing
    obtain ⟨before, last, after, rfl, closing, between⟩ := exists_first inside closing
    have alone : ¬(before = [] → ∀ l ∈ after, ¬isFrontMatterFence fence l) := by
      intro alone
      rw [enclosed?_of_first opening between closing alone] at missing
      exact nomatch missing
    obtain ⟨rfl, later⟩ := Classical.not_imp.mp alone
    obtain ⟨l, below, closes⟩ : ∃ l ∈ after, isFrontMatterFence fence l := by simpa using later
    obtain ⟨more, next, rest, rfl, closes, between⟩ := exists_first below closes
    rw [List.nil_append, enclosed?_of_last opening between closes] at missing
    exact nomatch missing
  · intro unclosed
    cases later with
    | nil => rfl
    | cons second later =>
      rw [enclosed?_of_none opening fun line inside => unclosed line (List.mem_cons_of_mem _ inside),
        if_neg (unclosed second List.mem_cons_self)]

end Enclosed

/-! ### Front matter of a text -/

theorem frontMatter?_of_opening {kind : FrontMatterKind} {t first : Text} {later : List Text}
    (split : t.lines = first :: later) (opening : kind.IsFence first) :
    frontMatter? t = (enclosed? kind.fence (first :: later)).map (·, kind) := by
  have isLine : first.IsLine := Text.isLine_of_mem_lines (split ▸ List.mem_cons_self)
  have closed : ∀ other, other ≠ kind → enclosed? other.fence (first :: later) = none := by
    intro other apart
    refine enclosed?_of_not_opening fun fence => apart ?_
    exact ((isFrontMatterFence_iff isLine).mp fence).kind_eq opening
  rw [frontMatter?_eq, split]
  cases kind with
  | yaml =>
    rw [closed .toml (by decide)]
    cases enclosed? FrontMatterKind.yaml.fence (first :: later) <;> rfl
  | toml =>
    rw [closed .yaml (by decide)]
    rfl

theorem enclosed?_prefix {fence body : Text} {ls : List Text} (found : enclosed? fence ls = some body) :
    body <+: ls.flatten := by
  match ls with
  | [] => exact nomatch found
  | [_] => exact nomatch found
  | first :: second :: lines =>
    simp only [enclosed?] at found
    split at found
    · exact nomatch found
    · split at found
      · obtain rfl := Option.some.inj found
        generalize (lines.takeWhile fun line => !isFrontMatterFence fence line).length + 1 = n
        refine ⟨(lines.drop n).flatten, ?_⟩
        rw [List.append_assoc, ← List.flatten_append, List.take_append_drop, List.flatten_cons, List.flatten_cons,
          List.append_assoc]
      · split at found
        · obtain rfl := Option.some.inj found
          exact ⟨lines.flatten, by simp⟩
        · exact nomatch found

theorem enclosed?_of_frontMatter? {t body : Text} {kind : FrontMatterKind} (found : frontMatter? t = some (body, kind)) :
    enclosed? kind.fence t.lines = some body := by
  rw [frontMatter?_eq] at found
  cases yaml : enclosed? FrontMatterKind.yaml.fence t.lines with
  | some text =>
    rw [yaml] at found
    obtain ⟨rfl, rfl⟩ := Prod.mk.inj (Option.some.inj found)
    exact yaml
  | none =>
    rw [yaml] at found
    obtain ⟨text, toml, same⟩ := Option.map_eq_some_iff.mp found
    obtain ⟨rfl, rfl⟩ := Prod.mk.inj same
    exact toml

theorem frontMatter?_prefix {t body : Text} {kind : FrontMatterKind} (found : frontMatter? t = some (body, kind)) :
    body <+: t := by
  have part := enclosed?_prefix (enclosed?_of_frontMatter? found)
  rwa [Text.lines_flatten] at part

/-! ### Null characters -/

theorem replaced_eq_iff {c d : Char} (other : d ≠ '\x00' ∧ d ≠ '\uFFFD') :
    (if c = '\x00' then '\uFFFD' else c) = d ↔ c = d := by
  split
  · rename_i null
    rw [null]
    exact ⟨fun same => absurd same.symm other.2, fun same => absurd same.symm other.1⟩
  · exact Iff.rfl

theorem isBlankChar_replaced (c : Char) : isBlankChar (if c = '\x00' then '\uFFFD' else c) = isBlankChar c := by
  split
  · rename_i null
    rw [null]
    decide
  · rfl

theorem isPrefixOf_withoutNulls {p : Text} (plain : ∀ d ∈ p, d ≠ '\x00' ∧ d ≠ '\uFFFD') (t : Text) :
    p.isPrefixOf t.withoutNulls = p.isPrefixOf t := by
  induction p generalizing t with
  | nil => simp
  | cons d p ih =>
    cases t with
    | nil => rfl
    | cons c t =>
      have own := replaced_eq_iff (c := c) (plain d List.mem_cons_self)
      have rest := ih (fun e inside => plain e (List.mem_cons_of_mem d inside)) t
      rw [Text.withoutNulls, List.map_cons, List.isPrefixOf_cons_cons, List.isPrefixOf_cons_cons]
      rw [Text.withoutNulls] at rest
      rw [rest]
      congr 1
      rw [beq_eq_beq]
      exact ⟨fun same => (own.mp same.symm).symm, fun same => (own.mpr same.symm).symm⟩

theorem isFrontMatterFence_withoutNulls (kind : FrontMatterKind) (line : Text) :
    isFrontMatterFence kind.fence line.withoutNulls = isFrontMatterFence kind.fence line := by
  have plain : ∀ d ∈ kind.fence, d ≠ '\x00' ∧ d ≠ '\uFFFD' := by
    intro d inside
    obtain rfl | rfl : d = '-' ∨ d = '+' := by cases kind <;> simp_all [FrontMatterKind.fence]
    · decide
    · decide
  have blank : isBlankChar ∘ (fun c => if c = '\x00' then '\uFFFD' else c) = isBlankChar :=
    funext isBlankChar_replaced
  have ends : ∀ t : Text, atLineEnd t.withoutNulls = atLineEnd t := by
    intro t
    cases t with
    | nil => rfl
    | cons c t =>
      have feed := replaced_eq_iff (c := c) (d := '\n') (by decide)
      simp only [Text.withoutNulls, atLineEnd, List.map_cons, List.isEmpty_cons, List.head?_cons, Option.some.injEq, feed]
  rw [isFrontMatterFence, isFrontMatterFence, Text.startsWith, isPrefixOf_withoutNulls plain, ← Text.startsWith]
  congr 1
  rw [Text.withoutNulls, ← List.map_drop, List.dropWhile_map, blank]
  exact ends _

theorem enclosed?_withoutNulls (kind : FrontMatterKind) (ls : List Text) :
    enclosed? kind.fence (ls.map Text.withoutNulls) = (enclosed? kind.fence ls).map Text.withoutNulls := by
  match ls with
  | [] => rfl
  | [_] => rfl
  | first :: second :: lines =>
    have same : (fun line : Text => !isFrontMatterFence kind.fence line) ∘ Text.withoutNulls =
        fun line => !isFrontMatterFence kind.fence line :=
      funext fun line => congrArg not (isFrontMatterFence_withoutNulls kind line)
    have flat : ∀ rows : List Text, (rows.map Text.withoutNulls).flatten = Text.withoutNulls rows.flatten :=
      fun rows => List.map_flatten.symm
    simp only [List.map_cons, enclosed?, List.takeWhile_map, same, List.length_map, isFrontMatterFence_withoutNulls,
      ← List.map_take, flat]
    split
    · rfl
    · split
      · simp [Text.withoutNulls]
      · split
        · simp [Text.withoutNulls]
        · rfl

theorem frontMatter?_withoutNulls (t : Text) : frontMatter? t.withoutNulls =
    (frontMatter? t).map fun (body, kind) => (body.withoutNulls, kind) := by
  have lines : t.withoutNulls.lines = t.lines.map Text.withoutNulls :=
    Text.lines_map (fun c => replaced_eq_iff (by decide)) t
  rw [frontMatter?_eq, frontMatter?_eq, lines, enclosed?_withoutNulls, enclosed?_withoutNulls]
  cases enclosed? FrontMatterKind.yaml.fence t.lines <;> cases enclosed? FrontMatterKind.toml.fence t.lines <;> rfl

/-! ### Reading the first block -/

/-- The source at the start of a text. -/
def start (t : Text) : Source := ⟨⟨t, 0⟩, [.document], []⟩

theorem view_start (t : Text) : (start t).view = some ⟨t, 0⟩ := by
  rfl

def asFrontMatter? : Block → Option (Text × FrontMatterKind)
  | leaf (.frontMatter body kind) => some (body, kind)
  | _ => none

theorem readParagraph_asFrontMatter? (first : Located) (s : Source) : (readParagraph first s).1.asFrontMatter? = none := by
  simp only [readParagraph]
  split <;> rfl

theorem readLeaf?_asFrontMatter? {s u : Source} {view : Cursor} {b : Block} (read : readLeaf? s view = some (b, u)) :
    b.asFrontMatter? = none := by
  simp only [readLeaf?] at read
  split at read
  · obtain ⟨rfl, -⟩ := Prod.mk.inj (Option.some.inj read)
    rfl
  · split at read
    · obtain ⟨rfl, -⟩ := Prod.mk.inj (Option.some.inj read)
      rfl
    · obtain ⟨code, -, same⟩ := Option.map_eq_some_iff.mp read
      obtain ⟨rfl, -⟩ := Prod.mk.inj same
      rfl

theorem readList_asFrontMatter? (fuel : Nat) (marker : ItemMarker) (s : Source) :
    (readList fuel marker s).1.asFrontMatter? = none := by
  cases fuel <;> rfl

/-- The front matter that may be read at a place: that of the text, at the start of a document. -/
def frontMatterAt? (s : Source) (view : Cursor) : Option (Text × FrontMatterKind) :=
  if s.cursor.offset = 0 && s.frames.length = 1 then frontMatter? view.rest else none

theorem readBlock_of_frontMatter {s : Source} {view : Cursor} {body : Text} {kind : FrontMatterKind}
    (here : s.view = some view) (found : frontMatterAt? s view = some (body, kind)) (fuel : Nat) :
    readBlock (fuel + 1) s =
      some (leaf (.frontMatter body kind), { s with cursor := s.cursor.advance body.length }) := by
  rw [frontMatterAt?] at found
  rw [readBlock, here]
  simp only [bind, Option.bind, found]

theorem asFrontMatter?_of_readBlock {fuel : Nat} {s u : Source} {view : Cursor} {b : Block}
    (here : s.view = some view) (read : readBlock fuel s = some (b, u)) :
    b.asFrontMatter? = frontMatterAt? s view := by
  cases fuel with
  | zero =>
    rw [readBlock] at read
    exact nomatch read
  | succ fuel =>
    have other : ∀ {c : Block} {v : Source}, c.asFrontMatter? = none → some (c, v) = some (b, u) →
        b.asFrontMatter? = none := by
      intro c v no same
      obtain ⟨rfl, -⟩ := Prod.mk.inj (Option.some.inj same)
      exact no
    cases found : frontMatterAt? s view with
    | some p =>
      rw [readBlock_of_frontMatter here found] at read
      obtain ⟨rfl, -⟩ := Prod.mk.inj (Option.some.inj read)
      rfl
    | none =>
      rw [frontMatterAt?] at found
      rw [readBlock, here] at read
      simp only [bind, Option.bind, found] at read
      split at read
      · exact other rfl read
      split at read
      · exact other rfl read
      split at read
      · exact other rfl read
      split at read
      · exact other (readList_asFrontMatter? _ _ _) read
      split at read
      · exact other rfl read
      split at read
      · exact other rfl read
      split at read
      · rename_i result taken
        exact other (readLeaf?_asFrontMatter? (taken.trans read)) rfl
      · exact other (readParagraph_asFrontMatter? _ _) read

/-- The blocks behind front matter are read from its end on. -/
def behindFrontMatter (t body : Text) : List Placed × Source :=
  readBlocks (8 * t.length + 63) ⟨⟨t.drop body.length, body.length⟩, [.document], []⟩

theorem readDocument_eq (t : Text) : readDocument t = ((readBlocks (8 * t.length + 63 + 1) (start t)).1.map (·.block),
    (readBlocks (8 * t.length + 63 + 1) (start t)).2.targets) := by
  have fuel : 8 * (t.length + 8) = 8 * t.length + 63 + 1 := by omega
  rw [readDocument, fuel]
  rfl

theorem readDocument_of_frontMatter {t body : Text} {kind : FrontMatterKind} (found : frontMatter? t = some (body, kind)) :
    readDocument t = (leaf (.frontMatter body kind) :: (behindFrontMatter t body).1.map (·.block),
      (behindFrontMatter t body).2.targets) := by
  have shown : (start t).atEnd = false := by
    cases t with
    | nil => exact nomatch found
    | cons c t => rfl
  have first := readBlock_of_frontMatter (view_start t) found (8 * t.length + 62)
  have blocks : readBlocks (8 * t.length + 63 + 1) (start t) =
      (⟨leaf (.frontMatter body kind), ⟨t, 0⟩⟩ :: (behindFrontMatter t body).1, (behindFrontMatter t body).2) := by
    rw [readBlocks, shown, if_neg Bool.false_ne_true, first]
    simp only [start, Cursor.advance, Nat.zero_add]
    rfl
  rw [readDocument_eq, blocks]
  rfl

theorem head_readDocument (t : Text) : (readDocument t).1.head?.bind asFrontMatter? = frontMatter? t := by
  cases found : frontMatter? t with
  | some p =>
    rw [readDocument_of_frontMatter found]
    rfl
  | none =>
    rw [readDocument_eq, readBlocks]
    split
    · rfl
    · split
      · rfl
      · rename_i b u read
        exact (asFrontMatter?_of_readBlock (view_start t) read).trans found

end Block
/-! ### Front matter of a document -/

namespace Node

def frontMatter? : Node → Option (Text × FrontMatterKind)
  | leaf (.frontMatter body kind) => some (body, kind)
  | _ => none

theorem number_frontMatter? (next : Nat) (n : Node) : (number next n).1.frontMatter? = n.frontMatter? := by
  cases n <;> rfl

theorem numberAll_head? (next : Nat) (ns : List Node) : (numberAll next ns).1.head?.bind frontMatter? =
    ns.head?.bind frontMatter? := by
  cases ns with
  | nil => rfl
  | cons n ns => exact number_frontMatter? next n

end Node

theorem Block.toNode_frontMatter? (context : Inline.Context) (b : Block) :
    (b.toNode context).frontMatter? = b.asFrontMatter? := by
  cases b with
  | leaf l => cases l <;> rfl
  | _ => rfl

theorem Document.sourceText_eq (t : Text) : sourceText t = t.normalizeLineEndings.withoutNulls := rfl

/-- A document starts with front matter exactly if its text does. -/
theorem Document.parse_head? (t : Text) : (parse t).children.head?.bind Node.frontMatter? =
    (Block.frontMatter? t.normalizeLineEndings).map fun (body, kind) => (body.withoutNulls, kind) := by
  rw [← Block.frontMatter?_withoutNulls, ← sourceText_eq, ← Block.head_readDocument, parse, parseFrom]
  generalize Block.readDocument (sourceText t) = read
  obtain ⟨blocks, targets⟩ := read
  dsimp only
  generalize (⟨targets, t.normalizeLineEndings.lineStarts.map Int.ofNat⟩ : Inline.Context) = context
  refine (Node.numberAll_head? 1 _).trans ?_
  cases blocks with
  | nil => rfl
  | cons b blocks => exact b.toNode_frontMatter? context

/-- A text whose first line is a fence has front matter exactly if a later line is one of its kind. It ends with the
first of these; but where that is right below the opening one, it ends with the next one, if there is a next one. -/
theorem Document.parse_frontMatter {t first : Text} {later : List Text} {kind : FrontMatterKind}
    (split : t.normalizeLineEndings.lines = first :: later) (opening : kind.IsFence first) :
    let front := (parse t).children.head?.bind Node.frontMatter?
    (front.isSome ↔ ∃ line ∈ later, kind.IsFence line) ∧
      (∀ before line after, later = before ++ line :: after → (∀ l ∈ before, ¬kind.IsFence l) → kind.IsFence line →
        (before = [] → ∀ l ∈ after, ¬kind.IsFence l) →
        front = some ((first ++ before.flatten ++ line).withoutNulls, kind)) ∧
      (∀ line between next after, later = line :: (between ++ next :: after) → kind.IsFence line →
        (∀ l ∈ between, ¬kind.IsFence l) → kind.IsFence next →
        front = some ((first ++ line ++ between.flatten ++ next).withoutNulls, kind)) := by
  have fence : ∀ line ∈ first :: later, (Block.isFrontMatterFence kind.fence line = true ↔ kind.IsFence line) :=
    fun line inside => Block.isFrontMatterFence_iff (Text.isLine_of_mem_lines (split ▸ inside))
  have opens := (fence first List.mem_cons_self).mpr opening
  have below : ∀ line ∈ later, (Block.isFrontMatterFence kind.fence line = true ↔ kind.IsFence line) :=
    fun line inside => fence line (List.mem_cons_of_mem first inside)
  have fenceless : ∀ {ls : List Text}, ls ⊆ later → (∀ l ∈ ls, ¬kind.IsFence l) →
      ∀ l ∈ ls, ¬Block.isFrontMatterFence kind.fence l :=
    fun part unfenced l inside closes => unfenced l inside ((below l (part inside)).mp closes)
  rw [parse_head?, Block.frontMatter?_of_opening split opening]
  refine ⟨?_, ?_, ?_⟩
  · rw [Option.isSome_map, Option.isSome_map, ← not_iff_not, Bool.not_eq_true, Option.isSome_eq_false_iff,
      Option.isNone_iff_eq_none, Block.enclosed?_eq_none opens]
    constructor
    · rintro unfenced ⟨line, inside, closes⟩
      exact unfenced line inside ((below line inside).mpr closes)
    · intro unclosed line inside closes
      exact unclosed ⟨line, inside, (below line inside).mp closes⟩
  · rintro before line after rfl between closing alone
    have closes := (below line (by simp)).mpr closing
    have between := fenceless (List.subset_append_left before _) between
    have alone : before = [] → ∀ l ∈ after, ¬Block.isFrontMatterFence kind.fence l :=
      fun top => fenceless (fun l inside => by simp [inside]) (alone top)
    rw [Block.enclosed?_of_first opens between closes alone]
    rfl
  · rintro line between next after rfl - unfenced closing
    have closes := (below next (by simp)).mpr closing
    have unfenced := fenceless (fun l inside => by simp [inside]) unfenced
    rw [Block.enclosed?_of_last opens unfenced closes]
    rfl

def titledText : Text := "---\ntitle: a\n--- \n---\n".toList

theorem titledText_frontMatter : titledText.normalizeLineEndings.lines =
      ["---\n".toList, "title: a\n".toList, "--- \n".toList, "---\n".toList] ∧
    FrontMatterKind.yaml.IsFence "---\n".toList ∧
    (Document.parse titledText).children.head?.bind Node.frontMatter? =
      some ("---\ntitle: a\n--- \n".toList, .yaml) := by
  have split : titledText.normalizeLineEndings.lines =
      ["---\n".toList, "title: a\n".toList, "--- \n".toList, "---\n".toList] := by decide
  have opening : FrontMatterKind.yaml.IsFence "---\n".toList := ⟨[], ['\n'], rfl, by simp, Or.inr rfl⟩
  have closing : FrontMatterKind.yaml.IsFence "--- \n".toList := ⟨[' '], ['\n'], rfl, by simp; rfl, Or.inr rfl⟩
  have title : ¬FrontMatterKind.yaml.IsFence "title: a\n".toList := by
    rintro ⟨blanks, stop, same, -⟩
    exact absurd (List.cons.inj same).1 (by decide)
  have front := (Document.parse_frontMatter split opening).2.1 ["title: a\n".toList] "--- \n".toList ["---\n".toList] rfl
    (List.forall_mem_singleton.mpr title) closing (fun empty => nomatch empty)
  exact ⟨split, opening, front⟩

def closedAtOnce : Text := "---\n---\n[a](u)\n\n---\n".toList

/-- Front matter that is closed at once takes in all that stands above the next fence, here a link. -/
theorem closedAtOnce_frontMatter : closedAtOnce.normalizeLineEndings.lines =
      ["---\n".toList, "---\n".toList, "[a](u)\n".toList, "\n".toList, "---\n".toList] ∧
    FrontMatterKind.yaml.IsFence "---\n".toList ∧
    (Document.parse closedAtOnce).children.map Node.frontMatter? = [some (closedAtOnce, .yaml)] :=
  ⟨by decide, ⟨[], ['\n'], rfl, by simp, Or.inr rfl⟩, by decide +kernel⟩

end MarkdownLinks
