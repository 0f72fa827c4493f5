import MarkdownLinks.Proofs.Block.FrontMatter
import MarkdownLinks.Proofs.Destination
import MarkdownLinks.Proofs.Inline.Line

/-!
Reading paragraphs of one line, the blank lines behind them and definitions that have been written, each from the start of
a line of the document.
-/

namespace MarkdownLinks.Block

open Text

/-- A character that starts nothing but a paragraph, or else a definition. -/
def isInitial (c : Char) : Bool :=
  !(isWhitespace c || isDecimalDigit c || "-_*\x60~#+><".toList.contains c)

variable {c : Char} {u line : Text} {offset : Nat} {targets : List (Text × Target)}

theorem afterIndent?_cons (shown : c ≠ ' ') (u : Text) : afterIndent? (c :: u) = some (c :: u) := by
  simp [afterIndent?, shown]

/-! ### What does not start -/

section Initial

variable (initial : isInitial c)

include initial

theorem isInitial.shown : isWhitespace c = false := by
  simp only [isInitial, Bool.not_eq_true', Bool.or_eq_false_iff] at initial
  exact initial.1.1

theorem isInitial.ne_space : c ≠ ' ' := ne_of_class initial (by decide)

theorem isInitial.ne_feed : c ≠ '\n' := ne_of_class initial (by decide)

theorem isThematicBreak_initial (u : Text) : isThematicBreak (c :: u) = false := by
  have dash : c ≠ '-' := ne_of_class initial (by decide)
  have low : c ≠ '_' := ne_of_class initial (by decide)
  have star : c ≠ '*' := ne_of_class initial (by decide)
  have body : lineBody (c :: u) = c :: lineBody u := by simp [lineBody, isInitial.ne_feed initial]
  rw [isThematicBreak, afterIndent?_cons (isInitial.ne_space initial), Option.map_some, body]
  simp [dash, low, star]

theorem fence?_initial (u : Text) : fence? (c :: u) = none := by
  have tick : c ≠ '\x60' := ne_of_class initial (by decide)
  have tilde : c ≠ '~' := ne_of_class initial (by decide)
  rw [fence?, afterIndent?_cons (isInitial.ne_space initial)]
  simp [tick, tilde]

theorem heading?_initial (u : Text) (offset : Nat) : heading? ⟨c :: u, offset⟩ = none := by
  have mark : c ≠ '#' := ne_of_class initial (by decide)
  rw [heading?, afterIndent?_cons (isInitial.ne_space initial)]
  simp [mark]

theorem itemMarker?_initial (u : Text) : itemMarker? (c :: u) = none := by
  have dash : c ≠ '-' := ne_of_class initial (by decide)
  have plus : c ≠ '+' := ne_of_class initial (by decide)
  have star : c ≠ '*' := ne_of_class initial (by decide)
  have digit : isDecimalDigit c = false := by
    simp only [isInitial, Bool.not_eq_true', Bool.or_eq_false_iff] at initial
    exact initial.1.2
  rw [itemMarker?, afterIndent?_cons (isInitial.ne_space initial)]
  simp [digit, dash, plus, star]

theorem isQuoteStart_initial (u : Text) : isQuoteStart (c :: u) = false := by
  have mark : c ≠ '>' := ne_of_class initial (by decide)
  rw [isQuoteStart, afterIndent?_cons (isInitial.ne_space initial)]
  simp [Text.startsWith, List.isPrefixOf, mark.symm]

theorem htmlStart?_initial (u : Text) : htmlStart? (c :: u) = none := by
  have mark : c ≠ '<' := ne_of_class initial (by decide)
  rw [htmlStart?, afterIndent?_cons (isInitial.ne_space initial)]
  simp [Text.startsWith, mark, mark.symm, startsBlockElement, isTagLine, Html.afterOpeningTag?, Html.afterClosingTag?]

theorem frontMatter?_initial (u : Text) : frontMatter? (c :: u) = none := by
  have dash : c ≠ '-' := ne_of_class initial (by decide)
  have plus : c ≠ '+' := ne_of_class initial (by decide)
  have first (kind : FrontMatterKind) : ¬ isFrontMatterFence kind.fence (c :: (splitFirstLine u).1) := by
    cases kind <;> simp [isFrontMatterFence, FrontMatterKind.fence, Text.startsWith, List.isPrefixOf, dash.symm, plus.symm]
  rw [frontMatter?_eq, lines_eq_cons (List.cons_ne_nil _ _), splitFirstLine_cons (isInitial.ne_feed initial),
    enclosed?_of_not_opening (first .yaml), enclosed?_of_not_opening (first .toml)]
  rfl

end Initial

/-! ### Lines of the document -/

/-- Reading at the start of a line of the document, with no other container open. -/
abbrev atLine (t : Text) (offset : Nat) (targets : List (Text × Target)) : Source := ⟨⟨t, offset⟩, [.document], targets⟩

theorem view_atLine : (atLine t offset targets).view = some ⟨t, offset⟩ := rfl

theorem nextLine_atLine (unbroken : '\n' ∉ line) (rest : Text) :
    (atLine (line ++ '\n' :: rest) offset targets).nextLine = atLine rest (offset + line.length + 1) targets := by
  have here : (atLine (line ++ '\n' :: rest) offset targets).line = line ++ ['\n'] := by
    rw [Source.line, splitFirstLine_append unbroken]
  have cut : line ++ '\n' :: rest = (line ++ ['\n']) ++ rest := List.append_cons line '\n' rest
  have behind : (line ++ '\n' :: rest).drop (line ++ ['\n']).length = rest := by rw [cut, List.drop_left]
  rw [Source.nextLine, here]
  simp [Cursor.advance, Frame.afterLine, atLine, Nat.add_assoc]

theorem isBlank_initial (initial : isInitial c) : (atLine (c :: u) offset targets).isBlank = false := by
  rw [Source.isBlank, Source.viewLine?, view_atLine, Option.map_some, splitFirstLine_cons (isInitial.ne_feed initial)]
  simp [Text.isBlank, isInitial.shown initial]

theorem indentedLine?_initial (initial : isInitial c) : indentedLine? (atLine (c :: u) offset targets) = none := by
  have tab : c ≠ '\t' := ne_of_class initial (by decide)
  have space : c ≠ ' ' := isInitial.ne_space initial
  have here : (atLine (c :: u) offset targets).line = c :: (splitFirstLine u).1 := by
    rw [Source.line, splitFirstLine_cons (isInitial.ne_feed initial)]
  have expanded : ∃ v, expandTabs (c :: (splitFirstLine u).1) = c :: v := by
    rw [expandTabs, expandTabs.go, if_neg tab]
    split <;> exact ⟨_, rfl⟩
  obtain ⟨v, expanded⟩ := expanded
  have marks : Mark.matchAll ([] ++ [codeIndent]) (c :: v) = none := by
    rw [List.nil_append, codeIndent, Mark.matchAll]
    simp [Text.startsWith, List.isPrefixOf, space.symm]
  rw [indentedLine?, here]
  change codeLine? ([] ++ [codeIndent]) (c :: (splitFirstLine u).1) = none
  rw [codeLine?, expanded, marks]
  rfl

/-- A line with such a start is read as a definition where that is one, and as the first one of a paragraph otherwise. -/
theorem readBlock_initial (initial : isInitial c) (fuel : Nat) : readBlock (fuel + 1) (atLine (c :: u) offset targets) =
    some (match definition? (c :: u) with
      | some d => (definition d.label d.target, ⟨(Cursor.mk (c :: u) offset).advance d.length, [.document],
          define (atLine (c :: u) offset targets) d.label d.target⟩)
      | none => readParagraph (locate (splitFirstLine (c :: u)).1 offset) (atLine (c :: u) offset targets)) := by
  rw [readBlock, view_atLine]
  simp only [bind, Option.bind, isThematicBreak_initial initial, fence?_initial initial, heading?_initial initial,
    itemMarker?_initial initial, opensQuote, isQuoteStart_initial initial, isBlank_initial initial, readLeaf?,
    htmlStart?_initial initial, indentedLine?_initial initial, frontMatter?_initial initial, ite_self]
  cases definition? (c :: u) <;> rfl

/-! ### Definitions -/

/-- A character that belongs to a destination without angle brackets and has no other meaning there. -/
def isBareChar (c : Char) : Bool := !(isWhitespace c || isControl c || "\\()<>".toList.contains c)

/-- A label and a destination that can be written without escapes. -/
def isBareDefinition (label dest : Text) : Bool := isName label && !dest.isEmpty && dest.all isBareChar

section Bare

variable {label dest : Text}

theorem labelLength?_name (named : isName label) (rest : Text) :
    labelLength? ('[' :: (label ++ ']' :: rest)) = some (label.length + 2) := by
  have passes : ∀ c ∈ label, c ≠ ']' ∧ decide (c = '[') = false ∧ c ≠ '\\' := fun c inside =>
    have quiet := quiet_of_isName named c inside
    ⟨ne_of_class quiet (by decide), decide_eq_false (ne_of_class quiet (by decide)), ne_of_class quiet (by decide)⟩
  have found : findUnescaped? (label ++ ']' :: rest) ']' (· = '[') = some label.length :=
    findUnescaped?_append passes rest
  simp only [isName, Bool.and_eq_true, Bool.not_eq_true', decide_eq_true_eq] at named
  rw [labelLength?, found]
  simp [named.1.2, Nat.not_lt.mpr named.2]

theorem definition?_of_ne (shown : c ≠ ' ') (bracket : c ≠ '[') (u : Text) : definition? (c :: u) = none := by
  have label : labelLength? (c :: u) = none := by simp [labelLength?, bracket]
  rw [definition?, afterIndent?_cons shown]
  simp [label]

theorem definition?_of_link (named : isName label) {rest : Text} (other : rest.head? ≠ some ':') :
    definition? ('[' :: (label ++ ']' :: rest)) = none := by
  rw [definition?, afterIndent?_cons (by decide)]
  simp only [bind, Option.bind, labelLength?_name named, drop_brackets, if_pos other]

theorem scanBare_append (bare : ∀ c ∈ dest, isBareChar c) (rest : Text) :
    scanBare false (dest ++ '\n' :: rest) = some (.open dest.length) := by
  have each (i : Nat) : scanBare.go false i false 0 (dest ++ '\n' :: rest) = some (.open (i + dest.length)) := by
    induction dest generalizing i with
    | nil => rfl
    | cons c dest ih =>
      obtain ⟨here, bare⟩ := List.forall_mem_cons.mp bare
      have escape : c ≠ '\\' := ne_of_class here (by decide)
      have opening : c ≠ '(' := ne_of_class here (by decide)
      have closing : c ≠ ')' := ne_of_class here (by decide)
      have separator : isSeparator c = false := by
        simp only [isSeparator, Bool.or_eq_false_iff, decide_eq_false_iff_not]
        exact ⟨⟨ne_of_class here (by decide), ne_of_class here (by decide)⟩, ne_of_class here (by decide)⟩
      have control : isControl c = false := by
        simp only [isBareChar, Bool.not_eq_true', Bool.or_eq_false_iff] at here
        exact here.1.2
      rw [List.cons_append, scanBare.go, if_neg Bool.false_ne_true, if_neg escape, separator, if_neg Bool.false_ne_true,
        control, if_neg Bool.false_ne_true, if_neg opening, if_neg closing, ih bare, List.length_cons, Nat.add_right_comm,
        Nat.add_assoc]
  rw [scanBare, each, Nat.zero_add]

theorem needsBrackets_of_bare (filled : dest ≠ []) (bare : ∀ c ∈ dest, isBareChar c) :
    Destination.needsBrackets dest = false := by
  have paired : dest.isPaired '(' ')' = true := isPaired_of_not_mem fun c inside =>
    ⟨ne_of_class (bare c inside) (by decide), ne_of_class (bare c inside) (by decide),
      ne_of_class (bare c inside) (by decide)⟩
  have plain : (dest.any fun c => isWhitespace c || decide (c = '<') || decide (c = '>')) = false := by
    refine List.any_eq_false.mpr fun c inside => ?_
    have here := bare c inside
    have less : c ≠ '<' := ne_of_class here (by decide)
    have greater : c ≠ '>' := ne_of_class here (by decide)
    simp only [isBareChar, Bool.not_eq_true', Bool.or_eq_false_iff] at here
    simp [here.1.1, less, greater]
  rw [Destination.needsBrackets, paired, plain, List.isEmpty_eq_false_iff.mpr filled]
  rfl

theorem write_of_bare (written : isBareDefinition label dest) : Destination.write dest = dest := by
  simp only [isBareDefinition, Bool.and_eq_true, Bool.not_eq_true', List.isEmpty_eq_false_iff, List.all_eq_true] at written
  rw [Destination.write, needsBrackets_of_bare written.1.2 written.2]
  split <;> rfl

theorem separatorLength_bare (here : isBareChar c) (u : Text) : separatorLength (c :: u) = 0 := by
  have feed : c ≠ '\n' := ne_of_class here (by decide)
  have space : c ≠ ' ' := ne_of_class here (by decide)
  have tab : c ≠ '\t' := ne_of_class here (by decide)
  simp [separatorLength, separatorLength.go, isSeparator, feed, space, tab]

theorem separatorLength_feed {tail : Text} (next : ∀ c ∈ tail.head?, c = '[') : separatorLength ('\n' :: tail) = 1 := by
  cases tail with
  | nil => rfl
  | cons c tail =>
    obtain rfl := next c rfl
    rfl

theorem target_of_bare (filled : dest ≠ []) (bare : ∀ c ∈ dest, isBareChar c) (n : Nat) :
    (TargetSpan.mk dest n none).target = ⟨dest, none⟩ := by
  have escape : '\\' ∉ dest := fun inside => ne_of_class (bare _ inside) (by decide) rfl
  rw [TargetSpan.target, Destination.read_bare (needsBrackets_of_bare filled bare), unescape_of_not_mem escape]
  rfl

theorem slice_feed (t tail : Text) : (t ++ '\n' :: tail).slice t.length (t.length + 1) = ['\n'] := by
  rw [Text.slice, List.drop_left, Nat.add_sub_cancel_left]
  rfl

/-- A bracket below a bare destination starts no title. -/
theorem scanTarget_bare (filled : dest ≠ []) (bare : ∀ c ∈ dest, isBareChar c) {tail : Text}
    (next : ∀ c ∈ tail.head?, c = '[') : scanTarget false (dest ++ '\n' :: tail) = some ⟨dest, dest.length, none⟩ := by
  have title : scanTitle false (dest ++ '\n' :: tail) dest dest.length = some ⟨dest, dest.length, none⟩ := by
    have behind : (dest ++ '\n' :: tail).drop (dest.length + 1) = tail := by
      rw [← List.drop_drop, List.drop_left, List.drop_one, List.tail_cons]
    simp only [scanTitle, List.drop_left, separatorLength_feed next, behind, slice_feed]
    cases tail with
    | nil => rfl
    | cons c tail =>
      obtain rfl := next c rfl
      rfl
  obtain ⟨c, rest, rfl⟩ := List.exists_cons_of_ne_nil filled
  have less : c ≠ '<' := ne_of_class (bare c List.mem_cons_self) (by decide)
  rw [List.cons_append] at title ⊢
  rw [scanTarget]
  · rw [← List.cons_append, scanBare_append bare, ← title]
    simp
  · exact List.cons_ne_nil _ _
  · exact fun _ same => less (List.cons.inj same).1

/-- A definition that was written is read as it was, if nothing but another one stands below it. -/
theorem definition?_written (written : isBareDefinition label dest) {tail : Text} (next : ∀ c ∈ tail.head?, c = '[') :
    definition? ('[' :: (label ++ ']' :: ':' :: ' ' :: (dest ++ '\n' :: tail))) =
      some ⟨label, ⟨dest, none⟩, label.length + dest.length + 5⟩ := by
  simp only [isBareDefinition, Bool.and_eq_true, Bool.not_eq_true', List.isEmpty_eq_false_iff, List.all_eq_true] at written
  obtain ⟨⟨named, filled⟩, bare⟩ := written
  have gap : separatorLength (' ' :: (dest ++ '\n' :: tail)) = 1 := by
    obtain ⟨c, rest, rfl⟩ := List.exists_cons_of_ne_nil filled
    exact congrArg (· + 1) (separatorLength_bare (bare c List.mem_cons_self) _)
  have own : Text.slice ('[' :: (label ++ ']' :: ':' :: ' ' :: (dest ++ '\n' :: tail))) 1 (label.length + 2 - 1) =
      label := by
    rw [Text.slice, List.drop_one, List.tail_cons]
    exact List.take_left
  have stop : (TargetSpan.mk dest dest.length none).stop = dest.length := rfl
  have line : findUnescaped? ('\n' :: tail) '\n' (fun _ => false) = some 0 := rfl
  have blank : Text.isBlank ['\n'] = true := rfl
  rw [definition?, afterIndent?_cons (by decide)]
  simp only [bind, Option.bind, labelLength?_name named, drop_brackets, List.head?_cons, List.tail_cons, gap, List.drop_one,
    scanTarget_bare filled bare next, own, stop, target_of_bare filled bare, List.drop_left, line, Option.map_some,
    Option.getD_some, Nat.zero_add, slice_feed, blank, ne_eq, not_true_eq_false, if_false, if_true, Nat.sub_self]
  have length : label.length + 2 + 1 + 1 + (dest.length + 1) = label.length + dest.length + 5 := by omega
  rw [length]

end Bare

/-! ### Paragraphs and blank lines -/

/-- Whether a line is read as a paragraph of its own if nothing but a blank line follows it. -/
def isParagraphLine (l : Line) : Bool :=
  l.isPlain && l.write.head?.any isInitial &&
    match l with
    | .link [] _ rest => rest.write.head? ≠ some ':'
    | _ => true

theorem definition?_paragraphLine {l : Line} (paragraph : isParagraphLine l) (below : Text) :
    ∃ c u, l.write = c :: u ∧ isInitial c ∧ definition? (l.write ++ '\n' :: below) = none := by
  simp only [isParagraphLine, Bool.and_eq_true] at paragraph
  obtain ⟨⟨plain, initial⟩, noLabel⟩ := paragraph
  have quietFirst {c : Char} {u : Text} (quiet : (c :: u).all isQuiet) : c ≠ '[' :=
    ne_of_class (List.all_eq_true.mp quiet c List.mem_cons_self) (by decide)
  cases l with
  | words t =>
    cases t with
    | nil => exact absurd initial Bool.false_ne_true
    | cons c t => exact ⟨c, t, rfl, initial, definition?_of_ne (isInitial.ne_space initial) (quietFirst plain) _⟩
  | link before name rest =>
    simp only [Line.isPlain, Bool.and_eq_true] at plain
    obtain ⟨⟨⟨⟨quiet, named⟩, -⟩, -⟩, -⟩ := plain
    cases before with
    | nil =>
      have other : (rest.write ++ '\n' :: below).head? ≠ some ':' := by
        cases first : rest.write with
        | nil => exact fun same => absurd (Option.some.inj same) (by decide)
        | cons c u => simpa [first] using noLabel
      refine ⟨'[', name ++ ']' :: rest.write, rfl, rfl, ?_⟩
      rw [Line.write, List.nil_append, List.cons_append, List.append_assoc]
      exact definition?_of_link named other
    | cons c before =>
      exact ⟨c, before ++ '[' :: (name ++ ']' :: rest.write), rfl, initial,
        definition?_of_ne (isInitial.ne_space initial) (quietFirst quiet) _⟩

theorem feed_not_mem_write {l : Line} (plain : l.isPlain) : '\n' ∉ l.write := fun inside =>
  ne_of_class (Inline.calm_of_mem_write plain _ inside) (by decide) rfl

theorem locate_append (t u : Text) (offset : Nat) :
    locate (t ++ u) offset = locate t offset ++ locate u (offset + t.length) := by
  rw [locate, locate, locate, List.length_append, ← List.range'_append_1, List.zip_append (List.length_range'.symm)]

theorem locate_withoutFeed {t : Text} (unbroken : '\n' ∉ t) (offset : Nat) :
    ((locate (t ++ ['\n']) offset).reverse.dropWhile fun x => x.1 = '\n').reverse = locate t offset := by
  have more : locate (t ++ ['\n']) offset = locate t offset ++ [('\n', offset + t.length)] := locate_append _ _ _
  have kept : (locate t offset).reverse.dropWhile (fun x => x.1 = '\n') = (locate t offset).reverse := by
    cases backwards : (locate t offset).reverse with
    | nil => rfl
    | cons x xs =>
      have inside : x ∈ locate t offset := List.mem_reverse.mp (backwards ▸ List.mem_cons_self)
      have other : x.1 ≠ '\n' := fun same => unbroken (same ▸ (List.of_mem_zip inside).1)
      exact List.dropWhile_cons_of_neg (by simpa using other)
  rw [more, List.reverse_append, List.reverse_singleton, List.singleton_append, List.dropWhile_cons_of_pos (by simp), kept,
    List.reverse_reverse]

theorem readParagraph_line {l : Line} (paragraph : isParagraphLine l) (rest : Text) (offset : Nat)
    (targets : List (Text × Target)) :
    readParagraph (locate (splitFirstLine (l.write ++ '\n' :: '\n' :: rest)).1 offset)
        (atLine (l.write ++ '\n' :: '\n' :: rest) offset targets) =
      (Block.paragraph (locate l.write offset), atLine ('\n' :: rest) (offset + l.write.length + 1) targets) := by
  obtain ⟨c, u, starts, initial, -⟩ := definition?_paragraphLine paragraph []
  simp only [isParagraphLine, Bool.and_eq_true] at paragraph
  have unbroken := feed_not_mem_write paragraph.1.1
  -- The blank line below ends the paragraph at once.
  have alone : ∀ fuel, readParagraphLines (fuel + 1) (atLine ('\n' :: rest) (offset + l.write.length + 1) targets) =
      ([], none, atLine ('\n' :: rest) (offset + l.write.length + 1) targets) := fun _ => rfl
  have first : (locate (l.write ++ ['\n']) offset).dropWhile (fun x => isWhitespace x.1) =
      locate (l.write ++ ['\n']) offset := by
    rw [starts]
    exact List.dropWhile_cons_of_neg (by simp [isInitial.shown initial])
  simp only [readParagraph, nextLine_atLine unbroken, alone, splitFirstLine_append unbroken, List.flatMap_cons,
    List.flatMap_nil, List.append_nil, first, locate_withoutFeed unbroken]

theorem readBlock_blank (behind : 0 < offset) (fuel : Nat) (rest : Text) :
    readBlock (fuel + 1) (atLine ('\n' :: rest) offset targets) =
      some (leaf .blankLine, Source.skipBlanks (rest.length + 2) (atLine ('\n' :: rest) offset targets)) := by
  have notFirst : (decide (offset = 0)) = false := decide_eq_false (Nat.ne_of_gt behind)
  rw [readBlock, view_atLine]
  simp only [bind, Option.bind, notFirst, Bool.false_and, Bool.false_eq_true, if_false]
  rfl

theorem skipBlanks_single {rest : Text} (next : ∀ c ∈ rest.head?, isInitial c) (fuel : Nat) :
    Source.skipBlanks (fuel + 2) (atLine ('\n' :: rest) offset targets) = atLine rest (offset + 1) targets := by
  have step : Source.skipBlanks (fuel + 2) (atLine ('\n' :: rest) offset targets) =
      Source.skipBlanks (fuel + 1) (atLine rest (offset + 1) targets) := rfl
  rw [step]
  cases rest with
  | nil => rfl
  | cons c rest =>
    rw [Source.skipBlanks, isBlank_initial (next c rfl), Bool.and_false, if_neg Bool.false_ne_true]

end MarkdownLinks.Block
