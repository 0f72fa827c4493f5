import Mathlib.Data.List.Sort
import MarkdownLinks.Proofs.Link.Wrapping

/-!
Which links reflowing makes attempts on. It goes through the source lines in order of their first links, and through each
line by columns. Where a link will start is estimated from its source column: what follows a link that has been looked at
moves by as much as that link becomes longer. If no link stands below another, the attempts depend on nothing else.
-/

namespace MarkdownLinks

/-! ### The order of links -/

theorem insertByColumn_eq (r : LinkRecord × Position) (qs : List (LinkRecord × Position)) :
    insertByColumn r qs = qs.orderedInsert (·.2.start.column ≤ ·.2.start.column) r := by
  induction qs with
  | nil => rfl
  | cons s qs ih => rw [insertByColumn, List.orderedInsert_cons, ih]

theorem recordsOnLine_eq (records : List (LinkRecord × Position)) (line : Int) : recordsOnLine records line =
    (records.filter (·.2.start.line = line)).insertionSort (·.2.start.column ≤ ·.2.start.column) := by
  rw [recordsOnLine, List.insertionSort]
  exact congrArg (List.foldr · [] _) (funext₂ insertByColumn_eq)

/-- Reflowing takes the lines in order of their first links, and the links of a line by their columns. -/
theorem recordsByLine_eq (index : Index) :
    let located := index.links.filterMap fun r => r.node.position.map (r, ·)
    recordsByLine index = (located.map (·.2.start.line)).eraseDups.map fun line =>
      (located.filter (·.2.start.line = line)).insertionSort (·.2.start.column ≤ ·.2.start.column) := by
  intro located
  rw [recordsByLine, foldl_eq_eraseDups]
  exact List.map_congr_left fun line _ => recordsOnLine_eq located line

/-! ### Columns -/

/-- Reflowing looks at inline links whose identity has one destination. -/
structure Report.Considers (report : Report) (r : LinkRecord) : Prop where
  inline : r.node.form.isReference = false
  leads : ∃ url, report.urls r.id = [url]

theorem Report.not_considers_iff {report : Report} {r : LinkRecord} :
    (r.node.form.isReference || (report.resolvedUrl r.id).isNone) = true ↔ ¬ report.Considers r := by
  constructor
  · rintro other ⟨inline, leads⟩
    rw [inline, Bool.false_or, Option.isNone_iff_eq_none] at other
    have lead := Report.resolvedUrl_isSome.mpr leads
    rw [other] at lead
    exact nomatch lead
  · intro other
    cases form : r.node.form.isReference with
    | true => rfl
    | false =>
      cases lead : report.resolvedUrl r.id with
      | none => rfl
      | some url => exact absurd ⟨form, Report.resolvedUrl_isSome.mp (lead ▸ rfl)⟩ other

/-- The attempt on a link behind `column`: made exactly if its identity in brackets would end behind `width`. -/
def attemptAt? (width column : Int) (r : LinkRecord) (ns : List Node) : Option Attempt :=
  if width < column + r.identity.length + 2 then
    some ⟨r, width - column - 2, wrappedLines? ns (width - column - 2)⟩
  else none

/-- The text of a link once an attempt on it may have been made. -/
def textAfter (made : Option Attempt) (ns : List Node) : List Node :=
  (made.bind Attempt.text?).elim ns fun text => [.leaf (.text text)]

/-- The attempts on the links of a line on which what follows stands `shift` columns further right than in the source. -/
inductive Estimated (report : Report) (width : Int) (tree : Node) :
    Int → List (LinkRecord × Position) → List Attempt → Prop
  | done {shift : Int} : Estimated report width tree shift [] []
  | passed {shift : Int} {q : LinkRecord × Position} {qs : List (LinkRecord × Position)} {as : List Attempt}
      (other : ¬ report.Considers q.1) (rest : Estimated report width tree shift qs as) :
      Estimated report width tree shift (q :: qs) as
  | met {shift : Int} {r : LinkRecord} {p : Position} {qs : List (LinkRecord × Position)} {as : List Attempt}
      {ns : List Node} {made : Option Attempt} {text : Text} (considered : report.Considers r)
      (member : .branch r.node.tag (.link r.node.form r.node.position) ns ∈ tree.subnodes)
      (attempted : made = attemptAt? width (p.start.column - 1 + shift) r ns)
      (written : (Node.fresh .paragraph (textAfter made ns)).renderInline = .ok text)
      (rest : Estimated report width tree
        (shift + ((lastLine text.strip).length + 2 - (p.stop.column - p.start.column))) qs as) :
      Estimated report width tree shift ((r, p) :: qs) (made.toList ++ as)

variable {report : Report} {index : Index} {f g : Forest} {visited : List LinkRecord} {as : List Attempt} {wrapped : Nat}
  {width : Int} {s s' : Reflowing} {r : LinkRecord} {p : Position}

namespace Reflowing

theorem passed {q : LinkRecord × Position} (other : ¬ report.Considers q.1) :
    step report width s q = .ok s ∧ s.attempt? report width q = none := by
  obtain ⟨r, p⟩ := q
  have stays := Report.not_considers_iff.mpr other
  simp only [step, attempt?, if_pos stays, and_self]

theorem attempt?_eq (considered : report.Considers r)
    (identity : (Node.fresh .paragraph (s.forest.childrenOf r.node.tag)).identity = .ok r.identity) :
    s.attempt? report width (r, p) =
      attemptAt? width (s.column + (p.start.column - s.lastEnd)) r (s.forest.childrenOf r.node.tag) := by
  have goes := mt Report.not_considers_iff.mp (not_not_intro considered)
  simp only [attempt?, if_neg goes, identity, attemptAt?, gt_iff_lt]

/-- Behind a link that has been looked at, the estimate has moved by as much as the link has become longer. -/
theorem step_shift (considered : report.Considers r) (taken : step report width s (r, p) = .ok s') :
    ∃ text, (Node.fresh .paragraph (s'.forest.childrenOf r.node.tag)).renderInline = .ok text ∧
      s'.column - s'.lastEnd =
        s.column - s.lastEnd + ((lastLine text.strip).length + 2 - (p.stop.column - p.start.column)) := by
  have goes := mt Report.not_considers_iff.mp (not_not_intro considered)
  simp only [step, if_neg goes] at taken
  cases identity : (Node.fresh .paragraph (s.forest.childrenOf r.node.tag)).identity with
  | error e =>
    rw [identity] at taken
    cases taken
  | ok own =>
    simp only [identity, bind, Except.bind] at taken
    split at taken
    · cases taken
    · rename_i text written
      obtain rfl := Except.ok.inj taken
      refine ⟨text, written, ?_⟩
      dsimp only
      omega

end Reflowing

/-- The record of a link has the identity of its text. -/
theorem Index.Collected.identityOf? {tree : Node} (all : index.Collected tree.walk) (distinct : tree.Distinct)
    (inside : r ∈ index.links) {ns : List Node}
    (member : .branch r.node.tag (.link r.node.form r.node.position) ns ∈ tree.subnodes) :
    Node.identityOf? ns = some r.identity := by
  have among : r.text ∈ tree.texts := by
    rw [← all.texts]
    exact List.mem_map_of_mem inside
  obtain ⟨m, member', shown⟩ := List.mem_filterMap.mp among
  unfold Node.linkText? at shown
  split at shown
  · obtain ⟨identity, own, same⟩ := Option.map_eq_some_iff.mp shown
    obtain ⟨link, rfl⟩ := Prod.mk.inj same
    obtain ⟨rfl, -⟩ := Prod.mk.inj link
    obtain ⟨-, -, rfl⟩ := Node.branch.inj (distinct.branch_inj member' member rfl)
    exact own
  · exact nomatch shown

theorem Node.identity_of_identityOf? {ns : List Node} {k : Text} (own : Node.identityOf? ns = some k) :
    (Node.fresh .paragraph ns).identity = .ok k := by
  unfold Node.identityOf? at own
  split at own
  · rename_i identity written
    split at own
    · exact nomatch own
    · rw [written, Option.some.inj own]
  · exact nomatch own

theorem newText_attempt (ns : List Node) {made : Option Attempt} (apart : ∀ a ∈ as, a.record.place ≠ r.place)
    (own : ∀ a ∈ made, a.record = r) :
    Node.rewrapped (newText (as ++ made.toList)) r.node.tag ns = textAfter made ns := by
  cases made with
  | none =>
    rw [Option.toList_none, List.append_nil]
    exact Node.rewrapped_of_none (newText_none apart) ns
  | some a =>
    obtain rfl := own a rfl
    have new : newText (as ++ [a]) a.record.node.tag.place = a.text? := by
      rw [newText_concat apart]
      exact Function.update_self _ _ _
    rw [Option.toList_some, Node.rewrapped, new, textAfter, Option.bind_some]
    cases a.text? <;> rfl

namespace Reflowing.Progress

/-- As long as no link stands below another, a link has the text of the document or the one it has been given. -/
theorem text (progress : Progress report index f visited as g wrapped) (sole : f.Sole)
    (tracks : Tracks index.links f.document) (unnested : f.document.unnested) (inside : r ∈ index.links) {ns : List Node}
    (member : .branch r.node.tag (.link r.node.form r.node.position) ns ∈ f.document.subnodes) :
    g.childrenOf r.node.tag = Node.rewrapped (newText as) r.node.tag ns := by
  obtain ⟨ms, member', children⟩ := progress.reflowed.link sole tracks inside
  rw [progress.forest] at member'
  obtain ⟨ns', old, rfl⟩ := Node.of_mem_rewrap member'
  obtain ⟨-, -, rfl⟩ := Node.branch.inj (sole.distinct.branch_inj old member rfl)
  rw [children, progress.wraps.below sole.distinct unnested member]

theorem estimated (progress : Progress report index f visited as s.forest s.wrapped) (sole : f.Sole)
    (all : index.Collected f.document.walk) (tracks : Tracks index.links f.document) (collectable : f.document.collectable)
    (unnested : f.document.unnested) {qs : List (LinkRecord × Position)}
    (known : ∀ q ∈ qs, q.1 ∈ index.links ∧ q.1.node.position = some q.2)
    (once : ((visited ++ qs.map (·.1)).map LinkRecord.place).Nodup) :
    Estimated report width f.document (s.column - s.lastEnd + 1) qs (lineAttempts report width s qs) := by
  induction qs generalizing s visited as with
  | nil => exact .done
  | cons q qs ih =>
    have fresh := place_ne_of_nodup once
    obtain ⟨inside, located⟩ := known q List.mem_cons_self
    obtain ⟨next, taken, progress'⟩ := progress.step sole tracks collectable width inside located fresh
    rw [List.map_cons, List.append_cons] at once
    have rest := ih progress' (fun q' later => known q' (List.mem_cons_of_mem _ later)) once
    rw [lineAttempts, taken]
    by_cases considered : report.Considers q.1
    case neg =>
      obtain ⟨same, none⟩ := passed considered
      obtain rfl := Except.ok.inj (same.symm.trans taken)
      rw [none]
      exact .passed considered rest
    case pos =>
      obtain ⟨r, p⟩ := q
      obtain ⟨ns, member⟩ := Rewriting.Tracks_node tracks inside
      have apart : ∀ a ∈ as, a.record.place ≠ r.place := fun a earlier =>
        fresh a.record (progress.visits.subset (List.mem_map_of_mem earlier))
      have own : s.forest.childrenOf r.node.tag = ns := by
        rw [progress.text sole tracks unnested inside member, Node.rewrapped_of_none (newText_none apart)]
      have identity := Node.identity_of_identityOf? (all.identityOf? sole.distinct inside member)
      have attempted : s.attempt? report width (r, p) =
          attemptAt? width (p.start.column - 1 + (s.column - s.lastEnd + 1)) r ns := by
        rw [attempt?_eq considered (own.symm ▸ identity), own]
        congr 1
        omega
      obtain ⟨text, written, moved⟩ := step_shift considered taken
      have onto : ∀ a ∈ s.attempt? report width (r, p), a.record = r := fun a made => (of_attempt? made).1
      have after := newText_attempt ns apart onto
      rw [progress'.text sole tracks unnested inside member, after] at written
      refine .met considered member attempted written ?_
      have shift : next.column - next.lastEnd + 1 = s.column - s.lastEnd + 1 +
          ((lastLine text.strip).length + 2 - (p.stop.column - p.start.column)) := by omega
      exact shift ▸ rest

theorem estimated_lines (progress : Progress report index f visited as g wrapped) (sole : f.Sole)
    (all : index.Collected f.document.walk) (tracks : Tracks index.links f.document) (collectable : f.document.collectable)
    (unnested : f.document.unnested) {ls : List (List (LinkRecord × Position))}
    (known : ∀ q ∈ ls.flatten, q.1 ∈ index.links ∧ q.1.node.position = some q.2)
    (once : ((visited ++ ls.flatten.map (·.1)).map LinkRecord.place).Nodup) :
    ∃ made, attemptsFrom report width (g, wrapped) ls = made.flatten ∧
      List.Forall₂ (Estimated report width f.document 0) ls made := by
  induction ls generalizing g wrapped visited as with
  | nil => exact ⟨[], rfl, .nil⟩
  | cons qs ls ih =>
    have visits : visited ++ (qs :: ls).flatten.map (·.1) = visited ++ qs.map (·.1) ++ ls.flatten.map (·.1) := by
      rw [List.flatten_cons, List.map_append, List.append_assoc]
    rw [List.flatten_cons] at known
    rw [visits] at once
    have first : ((visited ++ qs.map (·.1)).map LinkRecord.place).Nodup :=
      once.sublist ((List.sublist_append_left _ _).map _)
    have start : Progress report index f visited as (Reflowing.mk g wrapped 0 1).forest
        (Reflowing.mk g wrapped 0 1).wrapped := progress
    have inLine := fun q inside => known q (List.mem_append_left _ inside)
    have here : Estimated report width f.document 0 qs (lineAttempts report width ⟨g, wrapped, 0, 1⟩ qs) :=
      start.estimated sole all tracks collectable unnested inLine first
    obtain ⟨s, run, progress⟩ := start.line sole tracks collectable width inLine first
    have taken : reflowLine report width (g, wrapped) qs = .ok (s.forest, s.wrapped) := by
      rw [reflowLine, run]
      rfl
    obtain ⟨made, same, rest⟩ := ih progress (fun q later => known q (List.mem_append_right _ later)) once
    refine ⟨_ :: made, ?_, .cons here rest⟩
    rw [attemptsFrom, taken, List.flatten_cons, ← same]

end Reflowing.Progress

/-- If no link stands below another, the attempts are those that the estimate calls for: line by line, each of them starting
out with its links where they are in the source. -/
theorem attempts_estimated (next : Nat) (tag : Tag) (children : List Node) (width : Int) :
    let (tree, fresh) := Node.number next (.branch tag .document children)
    match Index.empty.collect tree with
    | .error _ => tree.collectable = false
    | .ok index => tree.unnested → ∃ made,
        attempts (Forest.ofDocument tree fresh) index (Report.detect index) width = made.flatten ∧
          List.Forall₂ (Estimated (Report.detect index) width tree 0) (recordsByLine index) made := by
  have document := documentTree_number next tag children
  generalize Node.number next (.branch tag .document children) = numbered at document
  obtain ⟨tree, fresh⟩ := numbered
  dsimp only at document ⊢
  cases collect : Index.empty.collect tree with
  | error e => exact Node.collectable_eq collect
  | ok index =>
    intro unnested
    have all := Index.collected collect
    have sole : (Forest.ofDocument tree fresh).Sole := ⟨rfl, document.distinct⟩
    have once := recordsByLine_nodup (Rewriting.Tracks_nodup document.distinct (document.tracks all))
    exact Reflowing.Progress.start.estimated_lines sole all (document.tracks all) (Node.collectable_eq collect) unnested
      (fun q => of_mem_recordsByLine) once

end MarkdownLinks
