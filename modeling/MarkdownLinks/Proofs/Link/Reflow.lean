import Mathlib.Data.List.Perm.Basic
import MarkdownLinks.Proofs.Link.Rewrite
import MarkdownLinks.Proofs.Node.Rewrap
import MarkdownLinks.Proofs.Node.Writable
import MarkdownLinks.Proofs.Text.Words

/-!
Reflowing puts the words of link texts in other lines and changes nothing else: the same nodes with tags are seen in
the same slots, and no text becomes one that cannot be written. It visits every link with a position once, and never
fails on a forest whose links could be collected.
-/

namespace MarkdownLinks

theorem foldlM_ok {ε α σ : Type} {P : σ → Prop} {f : σ → α → Except ε σ} {as : List α}
    (step : ∀ s a, P s → a ∈ as → ∃ s', f s a = .ok s' ∧ P s') {s : σ} (before : P s) :
    ∃ s', as.foldlM f s = .ok s' ∧ P s' := by
  induction as generalizing s with
  | nil => exact ⟨s, rfl, before⟩
  | cons a as ih =>
    obtain ⟨next, taken, after⟩ := step s a before List.mem_cons_self
    rw [List.foldlM_cons, taken]
    exact ih (fun s b holds member => step s b holds (List.mem_cons_of_mem _ member)) after

/-! ### Records by line -/

def LinkRecord.place (r : LinkRecord) : Nat := r.node.tag.place

theorem insertByColumn_perm (r : LinkRecord × Position) (qs : List (LinkRecord × Position)) :
    (insertByColumn r qs).Perm (r :: qs) := by
  induction qs with
  | nil => exact .refl _
  | cons s qs ih =>
    rw [insertByColumn]
    split
    · exact .refl _
    · exact (ih.cons s).trans (.swap r s qs)

theorem recordsOnLine_perm (records : List (LinkRecord × Position)) (line : Int) :
    (recordsOnLine records line).Perm (records.filter (·.2.start.line = line)) := by
  unfold recordsOnLine
  induction records.filter (·.2.start.line = line) with
  | nil => exact .refl _
  | cons r qs ih => exact (insertByColumn_perm r _).trans (ih.cons r)

theorem foldl_eq_eraseDups {α : Type} [BEq α] [LawfulBEq α] (as : List α) :
    as.foldl (fun ls l => if ls.contains l then ls else ls ++ [l]) [] = as.eraseDups := by
  have loop (seen : List α) : as.foldl (fun ls l => if ls.contains l then ls else ls ++ [l]) seen =
      List.eraseDupsBy.loop (· == ·) as seen.reverse := by
    induction as generalizing seen with
    | nil => rw [List.foldl_nil, List.eraseDupsBy.loop, List.reverse_reverse]
    | cons a as ih =>
      rw [List.foldl_cons, ih, List.eraseDupsBy.loop, List.any_reverse, ← List.contains_eq_any_beq]
      cases seen.contains a <;> simp
  exact loop []

/-- Grouping by a key moves members around. -/
theorem flatMap_filter_perm {α κ : Type} [DecidableEq κ] (key : α → κ) {ks : List κ} (nodup : ks.Nodup) {as : List α}
    (keyed : ∀ a ∈ as, key a ∈ ks) : (ks.flatMap fun k => as.filter fun a => key a = k).Perm as := by
  induction ks generalizing as with
  | nil =>
    rw [List.eq_nil_iff_forall_not_mem.mpr fun a inside => List.not_mem_nil (keyed a inside)]
    exact .refl _
  | cons k ks ih =>
    obtain ⟨absent, nodup⟩ := List.nodup_cons.mp nodup
    have others : ∀ a ∈ as.filter (fun a => !decide (key a = k)), key a ∈ ks := by
      intro a inside
      obtain ⟨inside, other⟩ := List.mem_filter.mp inside
      exact (List.mem_cons.mp (keyed a inside)).resolve_left (by simpa using other)
    have later : (ks.flatMap fun l => as.filter fun a => key a = l) =
        ks.flatMap fun l => (as.filter fun a => !decide (key a = k)).filter fun a => key a = l := by
      refine List.flatMap_congr fun l inside => ?_
      rw [List.filter_filter]
      refine List.filter_congr fun a _ => ?_
      by_cases same : key a = l
      · have other : l ≠ k := ne_of_mem_of_not_mem inside absent
        simp [same, other]
      · simp [same]
    rw [List.flatMap_cons, later]
    exact ((ih nodup others).append_left _).trans (List.filter_append_perm _ as)

/-- Reflowing visits every link with a position exactly once. -/
theorem recordsByLine_perm (index : Index) : (recordsByLine index).flatten.Perm
    (index.links.filterMap fun r => r.node.position.map (r, ·)) := by
  rw [recordsByLine, foldl_eq_eraseDups]
  generalize index.links.filterMap (fun r => r.node.position.map (r, ·)) = records
  rw [← List.flatMap_def]
  refine (List.Perm.flatMap_left _ fun line _ => recordsOnLine_perm records line).trans ?_
  refine flatMap_filter_perm (fun q : LinkRecord × Position => q.2.start.line) (eraseDups_nodup _) fun q inside => ?_
  exact List.mem_eraseDups.mpr (List.mem_map_of_mem inside)

theorem of_mem_recordsByLine {index : Index} {q : LinkRecord × Position} (member : q ∈ (recordsByLine index).flatten) :
    q.1 ∈ index.links ∧ q.1.node.position = some q.2 := by
  obtain ⟨r, inside, same⟩ := List.mem_filterMap.mp ((recordsByLine_perm index).mem_iff.mp member)
  obtain ⟨position, located, rfl⟩ := Option.map_eq_some_iff.mp same
  exact ⟨inside, located⟩

theorem recordsByLine_nodup {index : Index} (nodup : (index.links.map LinkRecord.place).Nodup) :
    (((recordsByLine index).flatten.map (·.1)).map LinkRecord.place).Nodup := by
  have located : ∀ rs : List LinkRecord, ((rs.filterMap fun r => r.node.position.map (r, ·)).map (·.1)).Sublist rs := by
    intro rs
    induction rs with
    | nil => exact .slnil
    | cons r rs ih =>
      cases position : r.node.position with
      | none => simpa [position] using ih.cons r
      | some p => simpa [position] using ih.cons_cons r
  have places := (located index.links).map LinkRecord.place
  exact (((recordsByLine_perm index).map _).map _).nodup_iff.mpr (nodup.sublist places)

/-! ### Reflowing -/

theorem plain_of_wrappedLines? {ns : List Node} {width : Int} {lines : List Text}
    (wrapped : wrappedLines? ns width = some lines) : ∃ old, ns.mapM plainText? = some old ∧
      Text.words (Text.joinWith ['\n'] lines) = Text.words old.flatten := by
  unfold wrappedLines? at wrapped
  cases plain : ns.mapM plainText? with
  | none => split at wrapped <;> simp [plain] at wrapped
  | some old =>
    refine ⟨old, rfl, ?_⟩
    have filled : Text.wrap width.toNat (Text.words old.flatten) = lines := by
      split at wrapped <;> simp_all
    rw [← filled, Text.words_wrap width.toNat fun w => Text.solid_of_mem_words]

/-- The record of an inline link that leads somewhere and has a plain text. -/
structure Wrappable (report : Report) (index : Index) (tree : Node) (r : LinkRecord) (old : List Text) : Prop where
  recorded : r ∈ index.links
  inline : r.node.form.isReference = false
  leads : (report.resolvedUrl r.id).isSome
  plain : ∃ ns, .branch r.node.tag (.link r.node.form r.node.position) ns ∈ tree.subnodes ∧
    ns.mapM plainText? = some old

/-- New texts that have the words of the old ones, for inline links that lead somewhere. -/
def Wraps (report : Report) (index : Index) (tree : Node) (texts : Nat → Option Text) : Prop :=
  ∀ place text, texts place = some text → ∃ r old, Wrappable report index tree r old ∧ r.node.tag.place = place ∧
    text.words = Text.words old.flatten

namespace Wraps

variable {report : Report} {index : Index} {tree : Node} {texts : Nat → Option Text}

theorem none : Wraps report index tree fun _ => none := fun _ _ same => nomatch same

/-- A branch in a place with a new text is the link of the record that allows it. -/
theorem branch (wraps : Wraps report index tree texts) (distinct : tree.Distinct) {t : Tag} {c : Container}
    {ns : List Node} {text : Text} (member : .branch t c ns ∈ tree.subnodes) (new : texts t.place = some text) :
    ∃ r ∈ index.links, ∃ old, t = r.node.tag ∧ c = .link r.node.form r.node.position ∧
      r.node.form.isReference = false ∧ (report.resolvedUrl r.id).isSome ∧ ns.mapM plainText? = some old ∧
      text.words = Text.words old.flatten := by
  obtain ⟨r, old, wrappable, place, words⟩ := wraps _ _ new
  obtain ⟨ms, member', plain⟩ := wrappable.plain
  obtain ⟨rfl, rfl, rfl⟩ := Node.branch.inj (distinct.branch_inj member member' place.symm)
  exact ⟨r, wrappable.recorded, old, rfl, rfl, wrappable.inline, wrappable.leads, plain, words⟩

theorem tagless (wraps : Wraps report index tree texts) (distinct : tree.Distinct) (t : Tag) (c : Container)
    (ns : List Node) (member : .branch t c ns ∈ tree.subnodes) (isSome : (texts t.place).isSome) :
    ∀ m ∈ ns, m.tag? = Option.none := by
  obtain ⟨text, new⟩ := Option.isSome_iff_exists.mp isSome
  obtain ⟨_, -, _, -, -, -, -, plain, -⟩ := wraps.branch distinct member new
  exact tag?_of_mapM_plainText? plain

theorem sights (wraps : Wraps report index tree texts) (distinct : tree.Distinct) :
    (tree.rewrap texts).sights = tree.sights := Node.sightsFrom_rewrap (wraps.tagless distinct) .none

end Wraps

/-- What reflowing leaves of a forest: all but the texts that it wraps. -/
structure Reflowed (report : Report) (index : Index) (f g : Forest) : Prop where
  others : g.others = f.others
  fresh : g.fresh = f.fresh
  rewrapped : ∃ texts, Wraps report index f.document texts ∧ g.document = f.document.rewrap texts

namespace Reflowed

variable {report : Report} {f g : Forest} {index : Index} {r : LinkRecord}

theorem refl : Reflowed report index f f :=
  ⟨rfl, rfl, _, Wraps.none, (Node.rebuild_eq_self fun _ _ _ _ => rfl).symm⟩

theorem sights (reflowed : Reflowed report index f g) (sole : f.Sole) : g.document.sights = f.document.sights := by
  obtain ⟨texts, wraps, document⟩ := reflowed.rewrapped
  rw [document, wraps.sights sole.distinct]

theorem collectable (reflowed : Reflowed report index f g) (collectable : f.document.collectable) :
    g.document.collectable := by
  obtain ⟨texts, -, document⟩ := reflowed.rewrapped
  rw [document]
  exact Node.collectable_rebuild (Node.keeps_rewrapped texts) collectable

theorem sole (reflowed : Reflowed report index f g) (sole : f.Sole) : g.Sole := by
  refine ⟨reflowed.others.trans sole.alone, ?_⟩
  rw [Node.Distinct, Node.tags, reflowed.sights sole]
  exact sole.distinct

theorem tracks (reflowed : Reflowed report index f g) (sole : f.Sole) (tracks : Tracks index.links f.document) :
    Tracks index.links g.document :=
  ⟨reflowed.sights sole ▸ tracks.sights, tracks.below⟩

theorem link (reflowed : Reflowed report index f g) (sole : f.Sole) (tracks : Tracks index.links f.document)
    (inside : r ∈ index.links) : ∃ ns, .branch r.node.tag (.link r.node.form r.node.position) ns ∈ g.document.subnodes ∧
      g.childrenOf r.node.tag = ns := by
  obtain ⟨ns, member⟩ := Rewriting.Tracks_node (reflowed.tracks sole tracks) inside
  exact ⟨ns, member, (reflowed.sole sole).childrenOf member rfl⟩

/-- A plain text has the words that it had before any wrapping. -/
theorem wrappable (reflowed : Reflowed report index f g) (sole : f.Sole) (tracks : Tracks index.links f.document)
    (inside : r ∈ index.links) (inline : r.node.form.isReference = false) (leads : (report.resolvedUrl r.id).isSome)
    {words : List Text} (plain : (g.childrenOf r.node.tag).mapM plainText? = some words) :
    ∃ old, Wrappable report index f.document r old ∧ Text.words words.flatten = Text.words old.flatten := by
  obtain ⟨ms, member, children⟩ := reflowed.link sole tracks inside
  obtain ⟨texts, wraps, document⟩ := reflowed.rewrapped
  rw [children] at plain
  rw [document] at member
  obtain ⟨ns, old, rfl⟩ := Node.of_mem_rewrap member
  cases new : texts r.node.tag.place with
  | none =>
    rw [Node.rewrapped_of_none new] at plain
    rw [Node.eq_of_mapM_plainText?_rewrap plain] at plain
    exact ⟨words, ⟨inside, inline, leads, ns, old, plain⟩, rfl⟩
  | some once =>
    rw [Node.rewrapped_of_some new] at plain
    obtain rfl : [once] = words := by simpa [plainText?] using plain
    obtain ⟨_, -, before, -, -, -, -, first, kept⟩ := wraps.branch sole.distinct old new
    refine ⟨before, ⟨inside, inline, leads, ns, old, first⟩, ?_⟩
    rw [← kept, List.flatten_cons, List.flatten_nil, List.append_nil]

/-- Giving an inline link that leads somewhere its own words in other lines is reflowing. -/
theorem setText (reflowed : Reflowed report index f g) (sole : f.Sole) (tracks : Tracks index.links f.document)
    (inside : r ∈ index.links) (inline : r.node.form.isReference = false) (leads : (report.resolvedUrl r.id).isSome)
    {words : List Text} {text : Text} (plain : (g.childrenOf r.node.tag).mapM plainText? = some words)
    (same : text.words = Text.words words.flatten) :
    Reflowed report index f
      (g.setChildren r.node.tag (.link r.node.form r.node.position) [.leaf (.text text)]) := by
  obtain ⟨old, wrappable, kept⟩ := reflowed.wrappable sole tracks inside inline leads plain
  obtain ⟨ms, member, -⟩ := reflowed.link sole tracks inside
  obtain ⟨texts, wraps, document⟩ := reflowed.rewrapped
  have alone : ∀ t c ns, .branch t c ns ∈ f.document.subnodes → t.place = r.node.tag.place → t = r.node.tag := by
    intro t c ns within place
    obtain ⟨was, here, -⟩ := wrappable.plain
    exact (Node.branch.inj (sole.distinct.branch_inj within here place)).1
  rw [(reflowed.sole sole).setChildren member]
  refine ⟨reflowed.others, reflowed.fresh, Function.update texts r.node.tag.place (some text), fun place new chosen => ?_,
    document ▸ Node.rewrap_update alone text⟩
  by_cases own : place = r.node.tag.place
  · rw [own, Function.update_self] at chosen
    exact ⟨r, old, wrappable, own.symm, (Option.some.inj chosen) ▸ same.trans kept⟩
  · rw [Function.update_of_ne own] at chosen
    exact wraps place new chosen

theorem text (reflowed : Reflowed report index f g) (sole : f.Sole) (tracks : Tracks index.links f.document)
    (collectable : f.document.collectable) (inside : r ∈ index.links) :
    ∃ text, (Node.fresh .paragraph (g.childrenOf r.node.tag)).renderInline = .ok text := by
  obtain ⟨ns, member, children⟩ := reflowed.link sole tracks inside
  have all : ns.all Node.writable := List.all_eq_true.mp (reflowed.collectable collectable) _ member
  exact isOk_iff.mp ((Node.renderInline_isOk _).trans (children ▸ all))

theorem step (sole : f.Sole) (tracks : Tracks index.links f.document) (collectable : f.document.collectable)
    (width : Int) {s : Reflowing} (reflowed : Reflowed report index f s.forest) {q : LinkRecord × Position}
    (inside : q.1 ∈ index.links) :
    ∃ s', Reflowing.step report width s q = .ok s' ∧ Reflowed report index f s'.forest := by
  obtain ⟨r, position⟩ := q
  simp only [Reflowing.step]
  split
  · exact ⟨s, rfl, reflowed⟩
  · rename_i goes
    obtain ⟨inline, leads⟩ : r.node.form.isReference = false ∧ (report.resolvedUrl r.id).isSome := by
      simpa [Option.isSome_iff_ne_none] using goes
    obtain ⟨old, written⟩ := reflowed.text sole tracks collectable inside
    have identity : (Node.fresh .paragraph (s.forest.childrenOf r.node.tag)).identity = .ok old.normalize := by
      rw [Node.identity, written]
      rfl
    simp only [identity, bind, Except.bind]
    generalize s.column + (position.start.column - s.lastEnd) = column
    generalize choice : (if column + old.normalize.length + 2 > width then
      wrappedLines? (s.forest.childrenOf r.node.tag) (width - column - 2) else none) = lines?
    cases lines? with
    | none =>
      simp only [written]
      exact ⟨_, rfl, reflowed⟩
    | some lines =>
      have wrapped : ∃ room, wrappedLines? (s.forest.childrenOf r.node.tag) room = some lines := by
        split at choice
        · exact ⟨_, choice⟩
        · cases choice
      obtain ⟨room, wrapped⟩ := wrapped
      obtain ⟨words, plain, same⟩ := plain_of_wrappedLines? wrapped
      have next := reflowed.setText sole tracks inside inline leads plain same
      obtain ⟨new, written'⟩ := next.text sole tracks collectable inside
      simp only [written']
      exact ⟨_, rfl, next⟩

/-- Reflowing never fails when the links of the document could be collected, and keeps all but their texts. -/
theorem run (sole : f.Sole) (tracks : Tracks index.links f.document) (collectable : f.document.collectable)
    (report : Report) (width : Int) :
    ∃ g wrapped, reflow f index report width = .ok (g, wrapped) ∧ Reflowed report index f g := by
  have onLine : ∀ (state : Forest × Nat) records, Reflowed report index f state.1 → records ∈ recordsByLine index →
      ∃ state', reflowLine report width state records = .ok state' ∧ Reflowed report index f state'.1 := by
    intro state records reflowed line
    obtain ⟨s, done, reflowed'⟩ := foldlM_ok (P := fun s => Reflowed report index f s.forest)
      (fun (s : Reflowing) q reflowed member =>
        reflowed.step sole tracks collectable width
          (of_mem_recordsByLine (List.mem_flatten.mpr ⟨records, line, member⟩)).1)
      (s := ⟨state.1, state.2, 0, 1⟩) reflowed
    refine ⟨(s.forest, s.wrapped), ?_, reflowed'⟩
    rw [reflowLine, done]
    rfl
  obtain ⟨state, done, reflowed⟩ := foldlM_ok onLine (s := (f, 0)) refl
  exact ⟨state.1, state.2, done, reflowed⟩

end Reflowed
end MarkdownLinks
