import MarkdownLinks.Inline.Parse
import MarkdownLinks.Proofs.Node.Bare
import MarkdownLinks.Proofs.Text.Escape

/-!
Reading a line of words and links that has been written. A link is written as its text in brackets; the line is read back
if its words hold no character that means something, nothing behind a link belongs to it, and all links lead somewhere.
-/

namespace MarkdownLinks

/-- A character that stands for itself wherever it is in a line. Of all whitespace only the space does. -/
def isQuiet (c : Char) : Bool := c = ' ' || !(isWhitespace c || "\x00\\[]\x60!*_<".toList.contains c)

theorem ne_of_class {p : Char → Bool} {c d : Char} (member : p c = true) (other : p d = false) : c ≠ d :=
  ne_of_apply_ne p (by rw [member, other]; decide)

/-- A text that can be that of a link and the label of a definition. -/
def isName (name : Text) : Bool := name.all isQuiet && !name.isBlank && name.length ≤ 999

theorem quiet_of_isName {name : Text} (named : isName name = true) : ∀ c ∈ name, isQuiet c = true := by
  simp only [isName, Bool.and_eq_true, List.all_eq_true] at named
  exact named.1.1

theorem ne_nil_of_isName {name : Text} (named : isName name = true) : name ≠ [] := by
  rintro rfl
  cases named

theorem drop_brackets (name after : Text) : ('[' :: (name ++ ']' :: after)).drop (name.length + 2) = after := by
  rw [List.drop_succ_cons, ← List.drop_drop, List.drop_left, List.drop_one, List.tail_cons]

theorem brackets_drop {name after whole : Text} {i : Nat} (here : whole.drop i = '[' :: (name ++ ']' :: after)) :
    whole.drop (i + 1) = name ++ ']' :: after ∧ whole.drop (i + name.length + 2) = after := by
  constructor
  · rw [← List.drop_drop, here, List.drop_one, List.tail_cons]
  · rw [Nat.add_assoc, ← List.drop_drop, here, drop_brackets]

/-- Words and links, each link with the words before it. -/
inductive Line
  | words (text : Text)
  | link (before name : Text) (rest : Line)

namespace Line

def write : Line → Text
  | words t => t
  | link before name rest => before ++ '[' :: (name ++ ']' :: rest.write)

def names : Line → List Text
  | words _ => []
  | link _ name rest => name :: rest.names

/-- Whether the words and texts of a line stand for themselves and no link takes in what follows it. -/
def isPlain : Line → Bool
  | words t => t.all isQuiet
  | link before name rest => before.all isQuiet && isName name && rest.write.head? ≠ some '(' &&
      rest.write.head? ≠ some '[' && rest.isPlain

def wordNodes (t : Text) : List Node := if t.isEmpty then [] else [.leaf (.text t)]

def nodes : Line → List Node
  | words t => wordNodes t
  | link before name rest => wordNodes before ++
      .fresh (.link (.reference name .shortcut) none) [.leaf (.text name)] :: rest.nodes

/-- The link that starts at an offset. -/
def token (start : Nat) (name : Text) : Inline.Token :=
  ⟨start, start + name.length + 2, start + 1, start + 1 + name.length, .link (.reference name .shortcut)⟩

/-- The links of a line that starts at an offset. -/
def tokens (start : Nat) : Line → List Inline.Token
  | words _ => []
  | link before name rest => token (start + before.length) name :: rest.tokens (start + before.length + name.length + 2)

theorem le_start_of_mem_tokens {l : Line} {start : Nat} {t : Inline.Token} (inside : t ∈ l.tokens start) :
    start ≤ t.start := by
  induction l generalizing start with
  | words text => exact absurd inside List.not_mem_nil
  | link before name rest ih =>
    rcases List.mem_cons.mp inside with rfl | later
    · exact Nat.le_add_right _ _
    · have := ih later
      omega

theorem tokens_pairwise (l : Line) (start : Nat) :
    (l.tokens start).Pairwise fun s t => s.start ≤ t.start ∧ s.stop ≤ t.start := by
  induction l generalizing start with
  | words text => exact List.Pairwise.nil
  | link before name rest ih =>
    refine List.pairwise_cons.mpr ⟨fun t later => ?_, ih _⟩
    have behind := le_start_of_mem_tokens later
    simp only [token]
    omega

end Line

namespace Inline

/-! ### Tokens in order -/

theorem sortTokens_eq_self {ts : List Token} (ascending : ts.Pairwise (·.start ≤ ·.start)) : sortTokens ts = ts := by
  induction ascending with
  | nil => rfl
  | @cons t ts first _ ih =>
    change insertToken t (sortTokens ts) = t :: ts
    rw [ih]
    cases ts with
    | nil => rfl
    | cons u ts => rw [insertToken, if_pos (first u List.mem_cons_self)]

theorem resolve_go_eq_map {last : Token} {ts : List Token} (first : ∀ t ∈ ts, last.stop ≤ t.start)
    (apart : ts.Pairwise (·.stop ≤ ·.start)) : resolve.go last [] ts = (last :: ts).map (·, []) := by
  induction apart generalizing last with
  | nil => rfl
  | @cons t ts behind _ ih =>
    have relation : last.relation t = .before := if_pos (first t List.mem_cons_self)
    rw [resolve.go, relation, List.map_cons, ← ih behind]
    rfl

theorem resolve_eq_map {ts : List Token} (apart : ts.Pairwise (·.stop ≤ ·.start)) : resolve ts = ts.map (·, []) := by
  cases apart with
  | nil => rfl
  | cons first later => exact resolve_go_eq_map first later

/-! ### Scanning -/

theorem scan_eq_nil {find : Option Char → Text → Option (Nat × Element)} {t : Text}
    (never : ∀ before u, u <:+ t → find before u = none) : scan find t = [] := by
  have each (i : Nat) (before : Option Char) : scan.go find i before 0 t = [] := by
    induction t generalizing i before with
    | nil => rfl
    | cons c t ih =>
      rw [scan.go, if_neg (Nat.lt_irrefl 0), never before (c :: t) List.suffix_rfl]
      exact ih (fun before u inside => never before u (inside.trans (List.suffix_cons c t))) _ _
  exact each 0 none

/-- A character that starts nothing but brackets, and no element that a single place decides on. -/
def isCalm (c : Char) : Bool := isQuiet c || c = '[' || c = ']'

theorem isCalm_of_isQuiet {c : Char} (quiet : isQuiet c) : isCalm c := by
  rw [isCalm, quiet]
  rfl

variable {c : Char} {t u : Text} {before : Option Char}

theorem codeSpan?_of_ne (other : c ≠ '\x60') (before : Option Char) (t : Text) : codeSpan? before (c :: t) = none := by
  simp [codeSpan?, other]

theorem autoLink?_of_calm (calm : ∀ c ∈ t, isCalm c) : autoLink? before t = none := by
  cases t with
  | nil => rfl
  | cons c t =>
    have other : c ≠ '<' := ne_of_class (calm c List.mem_cons_self) (by decide)
    simp [autoLink?, other]

theorem code?_of_calm (calm : ∀ c ∈ t, isCalm c) : code? before t = none := by
  cases t with
  | nil => rfl
  | cons c t => rw [code?, codeSpan?_of_ne (ne_of_class (calm c List.mem_cons_self) (by decide)), Option.map_none]

theorem html?_of_calm (calm : ∀ c ∈ t, isCalm c) : html? before t = none := by
  refine if_pos fun first => ?_
  exact ne_of_class (calm '<' (List.mem_of_head? first)) (by decide) rfl

theorem lineBreak?_of_calm (calm : ∀ c ∈ t, isCalm c) : lineBreak? before t = none := by
  have calm' : ∀ c ∈ t.drop (t.takeWhile (· = ' ')).length, isCalm c := fun c inside => calm c (List.mem_of_mem_drop inside)
  rw [lineBreak?]
  cases rest : t.drop (t.takeWhile (· = ' ')).length with
  | nil => rfl
  | cons c u =>
    rw [rest] at calm'
    have feed : c ≠ '\n' := ne_of_class (calm' c List.mem_cons_self) (by decide)
    have escape : c ≠ '\\' := ne_of_class (calm' c List.mem_cons_self) (by decide)
    simp [feed, escape]

theorem literal?_of_calm (calm : ∀ c ∈ t, isCalm c) : literal? before t = none := by
  cases t with
  | nil => rfl
  | cons c t =>
    have other : c ≠ '\\' := ne_of_class (calm c List.mem_cons_self) (by decide)
    cases t <;> simp [literal?, other]

theorem tokens_of_calm (targets : List (Text × Target)) (calm : ∀ c ∈ t, isCalm c) :
    tokens targets t = sortTokens (linksAndEmphases targets t) := by
  have inside {u : Text} (suffix : u <:+ t) : ∀ c ∈ u, isCalm c := fun c here => calm c (suffix.subset here)
  have none : [autoLink?, code?, html?, lineBreak?, literal?].flatMap (scan · t) = [] := by
    simp only [List.flatMap_cons, List.flatMap_nil, List.append_nil,
      scan_eq_nil fun _ _ suffix => autoLink?_of_calm (inside suffix),
      scan_eq_nil fun _ _ suffix => code?_of_calm (inside suffix),
      scan_eq_nil fun _ _ suffix => html?_of_calm (inside suffix),
      scan_eq_nil fun _ _ suffix => lineBreak?_of_calm (inside suffix),
      scan_eq_nil fun _ _ suffix => literal?_of_calm (inside suffix)]
  rw [tokens, none, List.append_nil]

/-! ### Brackets -/

variable {targets : List (Text × Target)} {whole : Text}

theorem delimiter?_of_quiet (quiet : isQuiet c) (i : Nat) (before : Option Char) (t : Text) :
    delimiter? i before (c :: t) = none := by
  have mark : c ≠ '!' := ne_of_class quiet (by decide)
  have bracket : c ≠ '[' := ne_of_class quiet (by decide)
  have star : c ≠ '*' := ne_of_class quiet (by decide)
  have line : c ≠ '_' := ne_of_class quiet (by decide)
  simp [delimiter?, mark, bracket, star, line]

/-- Reading goes over quiet text without a trace. -/
theorem linksAndEmphases_go_quiet (targets : List (Text × Target)) (whole : Text) (quiet : ∀ c ∈ t, isQuiet c) (i : Nat)
    (before : Option Char) (b : Brackets) (rest : Text) : ∃ before',
    linksAndEmphases.go targets whole i before 0 b (t ++ rest) =
      linksAndEmphases.go targets whole (i + t.length) before' 0 b rest := by
  induction t generalizing i before with
  | nil => exact ⟨before, rfl⟩
  | cons c t ih =>
    obtain ⟨here, quiet⟩ := List.forall_mem_cons.mp quiet
    have escape : c ≠ '\\' := ne_of_class here (by decide)
    have close : c ≠ ']' := ne_of_class here (by decide)
    have tick : c ≠ '\x60' := ne_of_class here (by decide)
    obtain ⟨before', later⟩ := ih quiet (i + 1) (some c)
    refine ⟨before', ?_⟩
    rw [List.cons_append, linksAndEmphases.go, if_neg (Nat.lt_irrefl 0), if_neg escape, codeSpan?_of_ne tick]
    simp only [if_neg close, delimiter?_of_quiet here]
    rw [later, List.length_cons, Nat.add_right_comm, Nat.add_assoc]

/-- Brackets around a text that names a definition make a link of it if nothing behind them belongs to it. -/
theorem closing?_of_apart {name after : Text} (known : (targets.lookup (identifierOf name)).isSome)
    (bracket : after.head? ≠ some '[') (parenthesis : after.head? ≠ some '(') :
    closing? targets false name after = some ⟨.link (.reference name .shortcut), 0⟩ := by
  obtain ⟨target, found⟩ := Option.isSome_iff_exists.mp known
  have noTarget : inlineTarget? after = none := by
    cases after with
    | nil => rfl
    | cons c after =>
      have other : c ≠ '(' := fun same => parenthesis (congrArg some same)
      simp [inlineTarget?, other]
  have label : referenceLabel name after = (name, .shortcut, 0) := by
    cases after with
    | nil => rfl
    | cons c after =>
      have other : c ≠ '[' := fun same => bracket (congrArg some same)
      have noLabel : labelLength? (c :: after) = none := by simp [labelLength?, other]
      simp [referenceLabel, noLabel, Text.startsWith, List.isPrefixOf, other.symm]
  rw [closing?, noTarget]
  simp only [label, found]
  rfl

/-- The bracket that opens at an offset. -/
def bracketAt (i : Nat) : Delimiter := ⟨.bracket false, i, i + 1, true, false, false⟩

theorem pairRuns_bracketAt (i : Nat) : pairRuns (some 0) [bracketAt i] = ([], [bracketAt i]) := by
  have none (fuel : Nat) (bottoms : Bottoms) : pairRuns.go fuel [bracketAt i] bottoms 1 = ([], [bracketAt i]) := by
    cases fuel <;> rfl
  simp only [pairRuns, Option.map_some, Option.getD_some, Nat.zero_add, none]
  rfl

theorem closeBracket_name {name after : Text} {i : Nat} (here : whole.drop i = '[' :: (name ++ ']' :: after))
    (quiet : ∀ c ∈ name, isQuiet c) (known : (targets.lookup (identifierOf name)).isSome)
    (bracket : after.head? ≠ some '[') (parenthesis : after.head? ≠ some '(') (found : List Token) :
    closeBracket targets whole (i + 1 + name.length) ⟨found, [bracketAt i]⟩ =
      (⟨found ++ [Line.token i name], []⟩, some (i + name.length + 2)) := by
  obtain ⟨inner, outer⟩ := brackets_drop here
  have text : whole.slice (i + 1) (i + 1 + name.length) = name := by
    rw [Text.slice, inner, Nat.add_sub_cancel_left, List.take_left]
  have stop : i + 1 + name.length + 1 = i + name.length + 2 := by omega
  have opener : ([bracketAt i].reverse.findIdx? (·.isBracket)).map ([bracketAt i].length - 1 - ·) = some 0 := rfl
  have paired : name.isPaired '[' ']' = true := Text.isPaired_of_not_mem fun c inside =>
    ⟨ne_of_class (quiet c inside) (by decide), ne_of_class (quiet c inside) (by decide),
      ne_of_class (quiet c inside) (by decide)⟩
  have active : (bracketAt i).active = true := rfl
  have kind : (bracketAt i).kind = .bracket false := rfl
  have start : (bracketAt i).stop = i + 1 := rfl
  simp only [closeBracket, opener, List.getElem?_cons_zero, active, kind, start, text, paired, stop, outer,
    DelimiterKind.bracket.injEq, closing?_of_apart known bracket parenthesis, decide_false, pairRuns_bracketAt,
    List.append_nil, Bool.not_true, Bool.or_self, Bool.false_eq_true, if_false]
  rfl

theorem linksAndEmphases_go_name {name after : Text} {i : Nat} (here : whole.drop i = '[' :: (name ++ ']' :: after))
    (quiet : ∀ c ∈ name, isQuiet c) (known : (targets.lookup (identifierOf name)).isSome)
    (bracket : after.head? ≠ some '[') (parenthesis : after.head? ≠ some '(') (before : Option Char)
    (found : List Token) :
    linksAndEmphases.go targets whole i before 0 ⟨found, []⟩ ('[' :: (name ++ ']' :: after)) =
      linksAndEmphases.go targets whole (i + name.length + 2) (some ']') 0 ⟨found ++ [Line.token i name], []⟩ after := by
  have opening : delimiter? i before ('[' :: (name ++ ']' :: after)) = some (bracketAt i) := rfl
  have count : (bracketAt i).count - 1 = 0 := by simp [Delimiter.count, bracketAt]
  obtain ⟨before', inside⟩ := linksAndEmphases_go_quiet targets whole quiet (i + 1) (some '[') ⟨found, [bracketAt i]⟩
    (']' :: after)
  have skip : i + name.length + 2 - (i + 1 + name.length + 1) = 0 := by omega
  have stop : i + 1 + name.length + 1 = i + name.length + 2 := by omega
  rw [linksAndEmphases.go, if_neg (Nat.lt_irrefl 0), if_neg (by decide), codeSpan?_of_ne (by decide)]
  simp only [opening, count, List.nil_append, show ¬('[' = ']') by decide, if_false]
  rw [inside, linksAndEmphases.go, if_neg (Nat.lt_irrefl 0), if_neg (by decide), codeSpan?_of_ne (by decide)]
  simp only [if_true, closeBracket_name here quiet known bracket parenthesis, Option.map_some, Option.getD_some, skip]
  rw [stop]

/-- The tokens of a line are its links. -/
theorem linksAndEmphases_go_write {l : Line} (plain : l.isPlain)
    (known : ∀ name ∈ l.names, (targets.lookup (identifierOf name)).isSome) {i : Nat} (here : whole.drop i = l.write)
    (before : Option Char) (found : List Token) :
    linksAndEmphases.go targets whole i before 0 ⟨found, []⟩ l.write = ⟨found ++ l.tokens i, []⟩ := by
  induction l generalizing i before found with
  | words t =>
    rw [Line.isPlain, List.all_eq_true] at plain
    obtain ⟨before', passed⟩ := linksAndEmphases_go_quiet targets whole plain i before ⟨found, []⟩ []
    rw [List.append_nil] at passed
    rw [Line.write, passed, Line.tokens, List.append_nil]
    rfl
  | link words name rest ih =>
    simp only [Line.isPlain, Bool.and_eq_true, List.all_eq_true, decide_eq_true_eq] at plain
    obtain ⟨⟨⟨⟨quiet, named⟩, parenthesis⟩, bracket⟩, plain⟩ := plain
    obtain ⟨here', known⟩ := List.forall_mem_cons.mp known
    obtain ⟨before', passed⟩ := linksAndEmphases_go_quiet targets whole quiet i before ⟨found, []⟩
      ('[' :: (name ++ ']' :: rest.write))
    have opening : whole.drop (i + words.length) = '[' :: (name ++ ']' :: rest.write) := by
      rw [← List.drop_drop, here, Line.write, List.drop_left]
    rw [Line.write, passed, linksAndEmphases_go_name opening (quiet_of_isName named) here' bracket parenthesis,
      ih plain known (brackets_drop opening).2, Line.tokens, List.append_assoc]
    rfl

/-! ### Nodes -/

theorem gap_of_drop {whole u v : Text} {i : Nat} (here : whole.drop i = u ++ v) :
    gap whole i (i + u.length) = Line.wordNodes u := by
  rw [gap, Text.slice, Nat.add_sub_cancel_left, here, List.take_left]
  cases u with
  | nil => exact if_neg (Nat.lt_irrefl i)
  | cons c u => exact if_pos (Nat.lt_add_of_pos_right (Nat.succ_pos _))

theorem nodes_nil (lineStarts : List Int) (t : Text) (offsets : Array Nat) (fuel start stop : Nat) :
    nodes lineStarts t offsets fuel [] start stop = gap t start stop := by
  cases fuel <;> rfl

/-- The node that a token makes if nothing lies in it. -/
def tokenNode (whole : Text) (position : Nat → Nat → Option Position) (t : Token) : Node :=
  t.element.toNode (position t.start t.stop) (gap whole t.innerStart t.innerStop)

theorem tokenNode_bare {name after : Text} {i : Nat} (here : whole.drop i = '[' :: (name ++ ']' :: after))
    (filled : name ≠ []) (position : Nat → Nat → Option Position) : (tokenNode whole position (Line.token i name)).bare =
      .fresh (.link (.reference name .shortcut) none) [.leaf (.text name)] := by
  have text : gap whole (i + 1) (i + 1 + name.length) = [.leaf (.text name)] := by
    rw [gap_of_drop (brackets_drop here).1, Line.wordNodes, if_neg (by simpa using filled)]
  rw [tokenNode, Line.token, text]
  rfl

theorem wordNodes_bare (t : Text) : (Line.wordNodes t).map Node.bare = Line.wordNodes t := by
  rw [Line.wordNodes]
  split <;> rfl

theorem fill_write {l : Line} (plain : l.isPlain) (position : Nat → Nat → Option Position) {i : Nat}
    (here : whole.drop i = l.write) (inside : i ≤ whole.length) :
    (fill whole whole.length i ((l.tokens i).map fun t => (t, tokenNode whole position t))).map Node.bare = l.nodes := by
  have length : whole.length = i + l.write.length := by
    rw [← here, List.length_drop, Nat.add_sub_cancel' inside]
  induction l generalizing i with
  | words t =>
    rw [← List.append_nil (Line.words t).write] at here
    rw [length]
    change (gap whole i (i + (Line.words t).write.length)).map Node.bare = _
    rw [gap_of_drop here, wordNodes_bare]
    rfl
  | link words name rest ih =>
    simp only [Line.isPlain, Bool.and_eq_true] at plain
    obtain ⟨⟨⟨⟨-, named⟩, -⟩, -⟩, plain⟩ := plain
    have opening : whole.drop (i + words.length) = '[' :: (name ++ ']' :: rest.write) := by
      rw [← List.drop_drop, here, Line.write, List.drop_left]
    have stop : whole.length = i + words.length + name.length + 2 + rest.write.length := by
      simp only [Line.write, List.length_append, List.length_cons] at length
      omega
    have later := ih plain (brackets_drop opening).2 (by omega) stop
    rw [Line.tokens, List.map_cons, fill, List.map_append, List.map_cons,
      tokenNode_bare opening (ne_nil_of_isName named)]
    have start : (Line.token (i + words.length) name).start = i + words.length := rfl
    have stop' : (Line.token (i + words.length) name).stop = i + words.length + name.length + 2 := rfl
    rw [start, stop', later, gap_of_drop here, wordNodes_bare]
    rfl

theorem calm_of_mem_write {l : Line} (plain : l.isPlain) : ∀ c ∈ l.write, isCalm c := by
  induction l with
  | words t => exact fun c inside => isCalm_of_isQuiet (List.all_eq_true.mp plain c inside)
  | link words name rest ih =>
    simp only [Line.isPlain, Bool.and_eq_true, List.all_eq_true] at plain
    obtain ⟨⟨⟨⟨quiet, named⟩, -⟩, -⟩, plain⟩ := plain
    intro c inside
    simp only [Line.write, List.mem_append, List.mem_cons] at inside
    rcases inside with first | rfl | second | rfl | later
    · exact isCalm_of_isQuiet (quiet c first)
    · rfl
    · exact isCalm_of_isQuiet (quiet_of_isName named c second)
    · rfl
    · exact ih plain c later

theorem tokens_write {l : Line} (plain : l.isPlain)
    (known : ∀ name ∈ l.names, (targets.lookup (identifierOf name)).isSome) : tokens targets l.write = l.tokens 0 := by
  have here : l.write.drop 0 = l.write := rfl
  have go := linksAndEmphases_go_write plain known here none []
  have found : linksAndEmphases targets l.write = l.tokens 0 := by
    rw [linksAndEmphases, go]
    exact List.append_nil _
  rw [tokens_of_calm targets (calm_of_mem_write plain), found]
  exact sortTokens_eq_self ((l.tokens_pairwise 0).imp And.left)

/-- A line is read as its nodes, wherever it stands. -/
theorem parse_locate {l : Line} (plain : l.isPlain) {context : Context}
    (known : ∀ name ∈ l.names, (context.targets.lookup (identifierOf name)).isSome) (offset : Nat) :
    (parse context (locate l.write offset)).map Node.bare = l.nodes := by
  have text : (locate l.write offset).map Prod.fst = l.write := by
    rw [locate, List.map_fst_zip (Nat.le_of_eq List.length_range'.symm)]
  simp only [parse, text, tokens_write plain known, nodes, resolve_eq_map ((l.tokens_pairwise 0).imp And.right),
    List.map_map, Function.comp_def, nodes_nil]
  exact fill_write plain _ rfl (Nat.zero_le _)

end Inline
end MarkdownLinks
