import MarkdownLinks.Inline.Parse

/-!
Links in what is read. A link puts the opening brackets around it out of use, so the links found in a text lie one
after the other, and none lies in another.
-/

namespace MarkdownLinks.Inline

/-! ### Runs -/

/-- A delimiter of which a part has been used up. -/
structure Delimiter.Within (d' d : Delimiter) : Prop where
  kind : d'.kind = d.kind
  active : d'.active = d.active
  start : d.start ≤ d'.start
  stop : d'.stop ≤ d.stop
  proper : d.start ≤ d.stop → d'.start ≤ d'.stop

theorem Delimiter.Within.refl (d : Delimiter) : d.Within d := ⟨rfl, rfl, Nat.le_refl _, Nat.le_refl _, id⟩

theorem Delimiter.Within.trans {d'' d' d : Delimiter} (inner : d''.Within d') (outer : d'.Within d) : d''.Within d :=
  ⟨inner.kind.trans outer.kind, inner.active.trans outer.active, Nat.le_trans outer.start inner.start,
    Nat.le_trans inner.stop outer.stop, fun proper => inner.proper (outer.proper proper)⟩

def Token.isLink (t : Token) : Bool :=
  match t.element with
  | .link _ => true
  | _ => false

theorem usePair_within {ds : List Delimiter} {i j : Nat} {opener closer : Delimiter} (openerAt : ds[i]? = some opener)
    (closerAt : ds[j]? = some closer) {d' : Delimiter} (inside : d' ∈ (usePair ds i j opener closer).1) :
    ∃ d ∈ ds, d'.Within d := by
  simp only [usePair, List.mem_append] at inside
  rcases inside with ((inside | inside) | inside) | inside
  · exact ⟨d', List.mem_of_mem_take inside, .refl d'⟩
  · split at inside
    · exact nomatch inside
    · rename_i left
      rw [List.mem_singleton.mp inside]
      refine ⟨opener, List.mem_of_getElem? openerAt, rfl, rfl, Nat.le_refl _, Nat.sub_le _ _, fun _ => ?_⟩
      simp only [Delimiter.count] at left ⊢
      omega
  · split at inside
    · exact nomatch inside
    · rename_i left
      rw [List.mem_singleton.mp inside]
      refine ⟨closer, List.mem_of_getElem? closerAt, rfl, rfl, Nat.le_add_right _ _, Nat.le_refl _, fun _ => ?_⟩
      simp only [Delimiter.count] at left ⊢
      omega
  · exact ⟨d', List.mem_of_mem_drop inside, .refl d'⟩

theorem emphasisToken_isLink (opener closer : Delimiter) : (emphasisToken opener closer).isLink = false := by
  by_cases two : min 2 (min opener.count closer.count) = 2
  · simp [emphasisToken, Token.isLink, two]
  · simp [emphasisToken, Token.isLink, two]

theorem within_self (ds : List Delimiter) : ∀ d' ∈ ds, ∃ d ∈ ds, d'.Within d := fun d' inside => ⟨d', inside, .refl d'⟩

theorem pairRuns_go (fuel : Nat) (ds : List Delimiter) (bottoms : Bottoms) (start : Nat) :
    (∀ t ∈ (pairRuns.go fuel ds bottoms start).1, t.isLink = false) ∧
      ∀ d' ∈ (pairRuns.go fuel ds bottoms start).2, ∃ d ∈ ds, d'.Within d := by
  have noTokens : ∀ t ∈ ([] : List Token), t.isLink = false := fun _ inside => nomatch inside
  induction fuel generalizing ds bottoms start with
  | zero => exact ⟨noTokens, within_self ds⟩
  | succ fuel ih =>
    rw [pairRuns.go]
    cases nextCloser? ds start with
    | none => exact ⟨noTokens, within_self ds⟩
    | some j =>
      dsimp only
      cases closerAt : ds[j]? with
      | none => exact ⟨noTokens, within_self ds⟩
      | some closer =>
        dsimp only
        cases nearestOpener? ds closer (bottoms.of closer.kind) j with
        | some i =>
          dsimp only
          cases openerAt : ds[i]? with
          | none => exact ⟨noTokens, within_self ds⟩
          | some opener =>
            obtain ⟨plain, inner⟩ := ih (usePair ds i j opener closer).1 bottoms (usePair ds i j opener closer).2
            refine ⟨fun t inside => ?_, fun d' inside => ?_⟩
            · rcases List.mem_cons.mp inside with rfl | later
              · exact emphasisToken_isLink opener closer
              · exact plain t later
            · obtain ⟨d, among, nested⟩ := inner d' inside
              obtain ⟨d₀, among₀, within₀⟩ := usePair_within openerAt closerAt among
              exact ⟨d₀, among₀, nested.trans within₀⟩
        | none =>
          dsimp only
          split
          · exact ih ds _ _
          · obtain ⟨plain, inner⟩ := ih (ds.eraseIdx j) (bottoms.set closer.kind (if j > 1 then some (j - 1) else none)) j
            refine ⟨plain, fun d' inside => ?_⟩
            obtain ⟨d, among, nested⟩ := inner d' inside
            exact ⟨d, List.mem_of_mem_eraseIdx among, nested⟩

theorem pairRuns_isLink (bottom : Option Nat) (ds : List Delimiter) : ∀ t ∈ (pairRuns bottom ds).1, t.isLink = false :=
  (pairRuns_go _ ds _ _).1

theorem pairRuns_within {bottom : Option Nat} {ds : List Delimiter} {d' : Delimiter}
    (inside : d' ∈ (pairRuns bottom ds).2) : ∃ d ∈ ds, d'.Within d :=
  (pairRuns_go _ ds _ _).2 d' (List.mem_of_mem_take inside)

/-! ### Brackets -/

/-- Where the parts of a token lie. -/
def Token.Proper (t : Token) : Prop := t.start ≤ t.innerStart ∧ t.innerStop < t.stop ∧ t.start < t.stop

/-- Links before an offset: they lie one after the other, and an opening bracket that can still become one lies
behind them. -/
structure Sound (b : Brackets) (offset : Nat) : Prop where
  ordered : b.tokens.Pairwise fun s t => s.isLink → t.isLink → s.stop ≤ t.start
  proper : ∀ t ∈ b.tokens, t.isLink → t.Proper ∧ t.stop ≤ offset
  delimiters : ∀ d ∈ b.delimiters, d.start ≤ d.stop ∧ d.stop ≤ offset
  behind : ∀ t ∈ b.tokens, t.isLink → ∀ d ∈ b.delimiters, d.kind = .bracket false → d.active → t.stop ≤ d.start

theorem Sound.mono {b : Brackets} {offset offset' : Nat} (sound : Sound b offset) (later : offset ≤ offset') :
    Sound b offset' := by
  refine ⟨sound.ordered, fun t inside link => ?_, fun d inside => ?_, sound.behind⟩
  · obtain ⟨proper, stop⟩ := sound.proper t inside link
    exact ⟨proper, Nat.le_trans stop later⟩
  · obtain ⟨proper, stop⟩ := sound.delimiters d inside
    exact ⟨proper, Nat.le_trans stop later⟩

theorem Sound.narrow {b : Brackets} {offset : Nat} (sound : Sound b offset) {ds : List Delimiter}
    (nested : ∀ d' ∈ ds, ∃ d ∈ b.delimiters, d'.Within d) : Sound ⟨b.tokens, ds⟩ offset := by
  refine ⟨sound.ordered, sound.proper, fun d' inside => ?_, fun t inside link d' inside' kind active => ?_⟩
  · obtain ⟨d, among, inner⟩ := nested d' inside
    obtain ⟨proper, stop⟩ := sound.delimiters d among
    exact ⟨inner.proper proper, Nat.le_trans inner.stop stop⟩
  · obtain ⟨d, among, inner⟩ := nested d' inside'
    have before := sound.behind t inside link d among (inner.kind ▸ kind) (inner.active ▸ active)
    exact Nat.le_trans before inner.start

theorem Sound.push {b : Brackets} {offset : Nat} (sound : Sound b offset) {d : Delimiter} (start : d.start = offset)
    (proper : d.start ≤ d.stop) : Sound ⟨b.tokens, b.delimiters ++ [d]⟩ d.stop := by
  have later : offset ≤ d.stop := start ▸ proper
  have before := sound.mono later
  refine ⟨before.ordered, before.proper, fun d' inside => ?_, fun t inside link d' inside' kind active => ?_⟩
  · rcases List.mem_append.mp inside with old | new
    · exact before.delimiters d' old
    · rw [List.mem_singleton.mp new]
      exact ⟨proper, Nat.le_refl _⟩
  · rcases List.mem_append.mp inside' with old | new
    · exact sound.behind t inside link d' old kind active
    · rw [List.mem_singleton.mp new, start]
      exact (sound.proper t inside link).2

theorem Sound.add_plain {b : Brackets} {offset : Nat} (sound : Sound b offset) {ts : List Token}
    (plain : ∀ t ∈ ts, t.isLink = false) : Sound ⟨b.tokens ++ ts, b.delimiters⟩ offset := by
  have other : ∀ t ∈ b.tokens ++ ts, t.isLink → t ∈ b.tokens := by
    intro t inside link
    rcases List.mem_append.mp inside with old | new
    · exact old
    · rw [plain t new] at link
      exact absurd link Bool.false_ne_true
  refine ⟨?_, fun t inside link => sound.proper t (other t inside link) link, sound.delimiters,
    fun t inside link => sound.behind t (other t inside link) link⟩
  rw [List.pairwise_append]
  refine ⟨sound.ordered, List.pairwise_iff_forall_sublist.mpr fun {s t} pair link => ?_, fun s _ t new _ link => ?_⟩
  · rw [plain s (pair.subset List.mem_cons_self)] at link
    exact absurd link Bool.false_ne_true
  · rw [plain t new] at link
    exact absurd link Bool.false_ne_true

theorem deactivate_active {ds : List Delimiter} {d : Delimiter} (inside : d ∈ deactivate ds)
    (kind : d.kind = .bracket false) : d.active = false := by
  obtain ⟨d', -, rfl⟩ := List.mem_map.mp inside
  split at kind
  · rename_i opens
    rw [if_pos opens]
  · exact absurd kind (by assumption)

theorem mem_deactivate {ds : List Delimiter} {d : Delimiter} (inside : d ∈ deactivate ds) :
    ∃ d' ∈ ds, d.start = d'.start ∧ d.stop = d'.stop := by
  obtain ⟨d', among, rfl⟩ := List.mem_map.mp inside
  refine ⟨d', among, ?_⟩
  split <;> exact ⟨rfl, rfl⟩

/-- A link closes all that is open for links. -/
theorem Sound.add_link {b : Brackets} {offset : Nat} (sound : Sound b offset) {t : Token} (proper : t.Proper)
    (later : offset ≤ t.stop) (behind : ∀ s ∈ b.tokens, s.isLink → s.stop ≤ t.start) :
    Sound ⟨b.tokens ++ [t], deactivate b.delimiters⟩ t.stop := by
  have before := sound.mono later
  refine ⟨?_, fun s inside link => ?_, fun d inside => ?_, fun s _ _ d inside kind active => ?_⟩
  · rw [List.pairwise_append]
    refine ⟨sound.ordered, List.pairwise_singleton _ _, fun s old s' new link _ => ?_⟩
    rw [List.mem_singleton.mp new]
    exact behind s old link
  · rcases List.mem_append.mp inside with old | new
    · exact before.proper s old link
    · rw [List.mem_singleton.mp new]
      exact ⟨proper, Nat.le_refl _⟩
  · obtain ⟨d', among, start, stop⟩ := mem_deactivate inside
    rw [start, stop]
    exact before.delimiters d' among
  · rw [deactivate_active inside kind] at active
    exact absurd active Bool.false_ne_true

theorem closing?_image {targets : List (Text × Target)} {text after : Text} {closing : Closing}
    (found : closing? targets true text after = some closing) : ∃ target, closing.element = .image target := by
  unfold closing? at found
  split at found
  · rename_i target length _
    exact ⟨target, by rw [← Option.some.inj found]; rfl⟩
  · obtain ⟨target, -, same⟩ := Option.map_eq_some_iff.mp found
    exact ⟨target, by rw [← same]; rfl⟩

theorem isBracket_of_findIdx? {ds : List Delimiter} {i : Nat} {opener : Delimiter}
    (found : (ds.reverse.findIdx? (·.isBracket)).map (ds.length - 1 - ·) = some i) (openerAt : ds[i]? = some opener) :
    opener.isBracket := by
  obtain ⟨k, last, rfl⟩ := Option.map_eq_some_iff.mp found
  obtain ⟨below, bracket, -⟩ := List.findIdx?_eq_some_iff_getElem.mp last
  rw [List.getElem_reverse] at bracket
  obtain ⟨_, same⟩ := List.getElem?_eq_some_iff.mp openerAt
  rwa [same] at bracket

theorem Sound.close {b : Brackets} {close : Nat} (sound : Sound b close) (targets : List (Text × Target)) (t : Text) :
    Sound (closeBracket targets t close b).1
      (close + 1 + (((closeBracket targets t close b).2.map (· - (close + 1))).getD 0)) := by
  unfold closeBracket
  cases found : (b.delimiters.reverse.findIdx? (·.isBracket)).map (b.delimiters.length - 1 - ·) with
  | none => exact sound.mono (Nat.le_succ _)
  | some i =>
    dsimp only
    cases openerAt : b.delimiters[i]? with
    | none => exact sound.mono (Nat.le_succ _)
    | some opener =>
      dsimp only
      have bracket := isBracket_of_findIdx? found openerAt
      have among := List.mem_of_getElem? openerAt
      have dropped : Sound ⟨b.tokens, b.delimiters.eraseIdx i⟩ (close + 1) :=
        (sound.mono (Nat.le_succ _)).narrow fun d inside => ⟨d, List.mem_of_mem_eraseIdx inside, .refl d⟩
      split
      · exact dropped
      · rename_i usable
        split
        · exact dropped
        · rename_i closing closed
          have narrowed : Sound ⟨b.tokens, (pairRuns (some i) b.delimiters).2.take i⟩ close :=
            sound.narrow fun d inside => pairRuns_within (List.mem_of_mem_take inside)
          have runs := pairRuns_isLink (some i) b.delimiters
          obtain ⟨start, stop⟩ := sound.delimiters opener among
          have stops : close + 1 + (close + 1 + closing.length - (close + 1)) = close + 1 + closing.length := by omega
          simp only [Option.map_some, Option.getD_some, stops]
          by_cases image : opener.kind = .bracket true
          · simp only [image, decide_true, if_true] at closed ⊢
            obtain ⟨target, element⟩ := closing?_image closed
            rw [List.append_assoc]
            refine (narrowed.add_plain fun t inside => ?_).mono (by omega)
            rcases List.mem_append.mp inside with old | new
            · exact runs t old
            · rw [List.mem_singleton.mp new, Token.isLink]
              simp only [element]
          · have kind : opener.kind = .bracket false := by
              unfold Delimiter.isBracket at bracket
              split at bracket
              · rename_i which same
                cases which with
                | true => exact absurd same image
                | false => exact same
              · exact absurd bracket Bool.false_ne_true
            obtain ⟨active, -⟩ : opener.active = true ∧ (t.slice opener.stop close).isPaired '[' ']' = true := by
              simpa using usable
            simp only [image, if_false]
            have added := narrowed.add_plain runs
            refine added.add_link ⟨start, ?_, ?_⟩ ?_ fun s inside link => ?_
            · change close < close + 1 + closing.length
              omega
            · change opener.start < close + 1 + closing.length
              omega
            · change close ≤ close + 1 + closing.length
              omega
            · rcases List.mem_append.mp inside with old | new
              · exact sound.behind s old link opener among kind active
              · rw [runs s new] at link
                exact absurd link Bool.false_ne_true

theorem delimiter?_start {i : Nat} {before : Option Char} {t : Text} {d : Delimiter}
    (found : delimiter? i before t = some d) : d.start = i ∧ d.start ≤ d.stop := by
  unfold delimiter? at found
  split at found
  · rw [← Option.some.inj found]
    exact ⟨rfl, Nat.le_add_right _ _⟩
  · rw [← Option.some.inj found]
    exact ⟨rfl, Nat.le_add_right _ _⟩
  · rw [← Option.some.inj found]
    exact ⟨rfl, Nat.le_add_right _ _⟩
  · rw [← Option.some.inj found]
    exact ⟨rfl, Nat.le_add_right _ _⟩
  · exact nomatch found

theorem Sound.go (targets : List (Text × Target)) (whole t : Text) {i skip : Nat} {before : Option Char} {b : Brackets}
    (sound : Sound b (i + skip)) : ∃ offset, Sound (linksAndEmphases.go targets whole i before skip b t) offset := by
  induction t generalizing i skip before b with
  | nil => exact ⟨_, sound⟩
  | cons c t ih =>
    have further : ∀ n, i + n ≤ i + 1 + (n - 1) := fun n => by omega
    rw [linksAndEmphases.go]
    split
    · exact ih (sound.mono (further skip))
    · rename_i here
      have sound : Sound b i := by
        rwa [Nat.eq_zero_of_not_pos here] at sound
      split
      · exact ih (sound.mono (by omega))
      · split
        · exact ih (sound.mono (by omega))
        · split
          · exact ih (sound.close targets whole)
          · split
            · rename_i d found
              obtain ⟨start, proper⟩ := delimiter?_start found
              refine ih ((sound.push start proper).mono ?_)
              rw [Delimiter.count]
              omega
            · exact ih (sound.mono (by omega))

def Token.Apart (s t : Token) : Prop := s.stop ≤ t.start ∨ t.stop ≤ s.start

/-- Tokens of which the links lie apart. -/
structure Separate (ts : List Token) : Prop where
  apart : ts.Pairwise fun s t => s.isLink → t.isLink → s.Apart t
  proper : ∀ t ∈ ts, t.isLink → t.Proper

theorem Separate.sublist {ts us : List Token} (separate : Separate ts) (sublist : us.Sublist ts) : Separate us :=
  ⟨separate.apart.sublist sublist, fun t inside => separate.proper t (sublist.subset inside)⟩

/-- The links found in a text lie apart. -/
theorem separate_linksAndEmphases (targets : List (Text × Target)) (whole : Text) :
    Separate (linksAndEmphases targets whole) := by
  have start : Sound ⟨[], []⟩ (0 + 0) := by
    constructor <;> simp
  obtain ⟨offset, sound⟩ := @Sound.go targets whole whole 0 0 none ⟨[], []⟩ start
  have found : Sound ⟨linksAndEmphases targets whole, _⟩ offset := sound.add_plain (pairRuns_isLink none _)
  exact ⟨found.ordered.imp fun ordered link link' => Or.inl (ordered link link'), fun t inside link =>
    (found.proper t inside link).1⟩

/-! ### All tokens -/

theorem Token.Apart.symm {s t : Token} (apart : s.Apart t) : t.Apart s := Or.symm apart

theorem Separate.perm {ts us : List Token} (separate : Separate ts) (perm : ts.Perm us) : Separate us := by
  refine ⟨(perm.pairwise_iff fun {s t} apart link link' => ?_).mp separate.apart, fun t inside link => ?_⟩
  · exact (apart link' link).symm
  · exact separate.proper t (perm.mem_iff.mpr inside) link

theorem Separate.add_plain {ts us : List Token} (separate : Separate ts) (plain : ∀ u ∈ us, u.isLink = false) :
    Separate (ts ++ us) := by
  have other : ∀ u ∈ us, ¬ u.isLink := fun u inside link => absurd ((plain u inside).symm.trans link) Bool.false_ne_true
  refine ⟨?_, fun t inside link => ?_⟩
  · rw [List.pairwise_append]
    refine ⟨separate.apart, List.pairwise_iff_forall_sublist.mpr fun {s t} pair link => ?_, fun s _ t new _ link => ?_⟩
    · exact absurd link (other s (pair.subset List.mem_cons_self))
    · exact absurd link (other t new)
  · rcases List.mem_append.mp inside with old | new
    · exact separate.proper t old link
    · exact absurd link (other t new)

theorem insertToken_perm (t : Token) (ts : List Token) : (insertToken t ts).Perm (t :: ts) := by
  induction ts with
  | nil => exact List.Perm.refl _
  | cons u us ih =>
    rw [insertToken]
    split
    · exact List.Perm.refl _
    · exact (ih.cons u).trans (List.Perm.swap t u us)

theorem sortTokens_perm (ts : List Token) : (sortTokens ts).Perm ts := by
  induction ts with
  | nil => exact List.Perm.refl _
  | cons t ts ih => exact (insertToken_perm t (sortTokens ts)).trans (ih.cons t)

theorem scan_go {find : Option Char → Text → Option (Nat × Element)} {t : Text} {i skip : Nat} {before : Option Char}
    {token : Token} (inside : token ∈ scan.go find i before skip t) :
    ∃ before rest n, find before rest = some (n, token.element) := by
  induction t generalizing i skip before with
  | nil => exact nomatch inside
  | cons c t ih =>
    rw [scan.go] at inside
    split at inside
    · exact ih inside
    · split at inside
      · rename_i n element found
        rcases List.mem_cons.mp inside with rfl | later
        · exact ⟨before, c :: t, n, found⟩
        · exact ih later
      · exact ih inside

def Element.isPlain : Element → Bool
  | .autoLink _ _ | .leaf _ => true
  | _ => false

theorem autoLink?_isPlain {before : Option Char} {t : Text} {n : Nat} {element : Element}
    (found : autoLink? before t = some (n, element)) : element.isPlain := by
  unfold autoLink? at found
  split at found
  · split at found
    · rw [← (Prod.mk.inj (Option.some.inj found)).2]
      rfl
    · obtain ⟨mail, -, same⟩ := Option.map_eq_some_iff.mp found
      rw [← (Prod.mk.inj same).2]
      rfl
  · exact nomatch found

theorem code?_isPlain {before : Option Char} {t : Text} {n : Nat} {element : Element}
    (found : code? before t = some (n, element)) : element.isPlain := by
  obtain ⟨span, -, same⟩ := Option.map_eq_some_iff.mp found
  rw [← (Prod.mk.inj same).2]
  rfl

theorem html?_isPlain {before : Option Char} {t : Text} {n : Nat} {element : Element}
    (found : html? before t = some (n, element)) : element.isPlain := by
  unfold html? at found
  split at found
  · exact nomatch found
  · obtain ⟨rest, -, same⟩ := Option.map_eq_some_iff.mp found
    rw [← (Prod.mk.inj same).2]
    rfl

theorem lineBreak?_isPlain {before : Option Char} {t : Text} {n : Nat} {element : Element}
    (found : lineBreak? before t = some (n, element)) : element.isPlain := by
  simp only [lineBreak?] at found
  split at found
  · rw [← (Prod.mk.inj (Option.some.inj found)).2]
    rfl
  · split at found
    · rw [← (Prod.mk.inj (Option.some.inj found)).2]
      rfl
    · exact nomatch found
  · exact nomatch found

theorem literal?_isPlain {before : Option Char} {t : Text} {n : Nat} {element : Element}
    (found : literal? before t = some (n, element)) : element.isPlain := by
  unfold literal? at found
  split at found
  · split at found
    · rw [← (Prod.mk.inj (Option.some.inj found)).2]
      rfl
    · exact nomatch found
  · exact nomatch found

theorem scan_isLink {find : Option Char → Text → Option (Nat × Element)}
    (among : find ∈ [autoLink?, code?, html?, lineBreak?, literal?]) {t : Text} {token : Token}
    (inside : token ∈ scan find t) : token.isLink = false := by
  obtain ⟨before, rest, n, found⟩ := scan_go inside
  have plain : token.element.isPlain := by
    simp only [List.mem_cons, List.not_mem_nil, or_false] at among
    rcases among with rfl | rfl | rfl | rfl | rfl
    · exact autoLink?_isPlain found
    · exact code?_isPlain found
    · exact html?_isPlain found
    · exact lineBreak?_isPlain found
    · exact literal?_isPlain found
  rw [Token.isLink]
  cases element : token.element with
  | link form =>
    rw [element] at plain
    exact absurd plain Bool.false_ne_true
  | _ => rfl

theorem separate_tokens (targets : List (Text × Target)) (t : Text) : Separate (tokens targets t) := by
  refine ((separate_linksAndEmphases targets t).add_plain fun token inside => ?_).perm (sortTokens_perm _).symm
  obtain ⟨find, among, inside⟩ := List.mem_flatMap.mp inside
  exact scan_isLink among inside

/-! ### What lies inside -/

/-- A token and what was found inside it, of those of a list. -/
structure Inside (ts : List Token) (p : Token × List Token) : Prop where
  sublist : (p.1 :: p.2).Sublist ts
  around : ∀ t ∈ p.2, p.1.innerStart ≤ t.start ∧ t.stop ≤ p.1.innerStop

theorem around_of_relation {s t : Token} (relation : s.relation t = .around) :
    s.innerStart ≤ t.start ∧ t.stop ≤ s.innerStop := by
  unfold Token.relation at relation
  split at relation
  · exact nomatch relation
  · split at relation
    · exact nomatch relation
    · split at relation
      · rename_i inner
        simpa using inner
      · split at relation <;> exact nomatch relation

theorem resolve_go {last : Token} {inside ts : List Token}
    (around : ∀ t ∈ inside, last.innerStart ≤ t.start ∧ t.stop ≤ last.innerStop) {p : Token × List Token}
    (member : p ∈ resolve.go last inside ts) : Inside (last :: (inside.reverse ++ ts)) p := by
  induction ts generalizing last inside with
  | nil =>
    obtain rfl := List.mem_singleton.mp member
    rw [List.append_nil]
    exact ⟨List.Sublist.refl _, fun t here => around t (List.mem_reverse.mp here)⟩
  | cons t ts ih =>
    have noTokens : ∀ u ∈ ([] : List Token), t.innerStart ≤ u.start ∧ u.stop ≤ t.innerStop := fun _ here => nomatch here
    have skip : (last :: (inside.reverse ++ ts)).Sublist (last :: (inside.reverse ++ t :: ts)) :=
      ((List.sublist_cons_self t ts).append_left _).cons_cons last
    have later : (t :: ts).Sublist (last :: (inside.reverse ++ t :: ts)) :=
      (List.sublist_append_right _ _).cons last
    rw [resolve.go] at member
    split at member
    · rcases List.mem_cons.mp member with rfl | member
      · exact ⟨(List.sublist_append_left _ _).cons_cons last, fun u here => around u (List.mem_reverse.mp here)⟩
      · obtain ⟨sublist, around'⟩ := ih noTokens member
        exact ⟨sublist.trans later, around'⟩
    · rename_i relation
      obtain ⟨sublist, around'⟩ := ih (List.forall_mem_cons.mpr ⟨around_of_relation relation, around⟩) member
      rw [List.reverse_cons, List.append_assoc, List.singleton_append] at sublist
      exact ⟨sublist, around'⟩
    · obtain ⟨sublist, around'⟩ := ih around member
      exact ⟨sublist.trans skip, around'⟩
    · split at member
      · obtain ⟨sublist, around'⟩ := ih noTokens member
        exact ⟨sublist.trans later, around'⟩
      · obtain ⟨sublist, around'⟩ := ih around member
        exact ⟨sublist.trans skip, around'⟩

theorem inside_of_mem_resolve {ts : List Token} {p : Token × List Token} (member : p ∈ resolve ts) : Inside ts p := by
  cases ts with
  | nil => exact nomatch member
  | cons t ts =>
    have noTokens : ∀ u ∈ ([] : List Token), t.innerStart ≤ u.start ∧ u.stop ≤ t.innerStop := fun _ here => nomatch here
    exact resolve_go noTokens member

/-- No link lies in another. -/
theorem Inside.not_isLink {ts : List Token} {p : Token × List Token} (inside : Inside ts p) (separate : Separate ts)
    (link : p.1.isLink) {t : Token} (member : t ∈ p.2) : t.isLink = false := by
  cases link' : t.isLink with
  | false => rfl
  | true =>
    obtain ⟨apart, proper⟩ := separate.sublist inside.sublist
    obtain ⟨first, last, -⟩ := proper p.1 List.mem_cons_self link
    obtain ⟨-, -, filled⟩ := proper t (List.mem_cons_of_mem _ member) link'
    obtain ⟨start, stop⟩ := inside.around t member
    rcases (List.pairwise_cons.mp apart).1 t member link link' with before | before <;> omega

end MarkdownLinks.Inline
