import MarkdownLinks.Proofs.Link.Rewrap
import MarkdownLinks.Proofs.Text.Fill

/-!
Which link texts are wrapped, and how. A run of reflowing makes attempts on links one after the other; an attempt breaks
a plain text into greedily filled lines or leaves it, and it says why. What comes of the document is the document with
the texts of the attempts that broke one.
-/

namespace MarkdownLinks

/-! ### One text -/

/-- The words of a text, if it is plain. -/
def plainWords? (ns : List Node) : Option (List Text) := (ns.mapM plainText?).map fun texts => Text.words texts.flatten

/-- A plain text in lines: its words in order, greedily filled up to `room`. -/
structure Broken (ns : List Node) (room : Int) (lines : List Text) : Prop where
  wide : minReflowWidth ≤ room
  several : 2 ≤ lines.length
  unbroken : ∀ line ∈ lines, '\n' ∉ line
  filled : ∃ words filling, plainWords? ns = some words ∧ Text.Filled room.toNat words filling ∧
    lines = filling.map (Text.joinWith [' '])
  words : plainWords? ns = some (Text.joinWith ['\n'] lines).words
  identity : (Node.fresh .paragraph [.leaf (.text (Text.joinWith ['\n'] lines))]).identity =
    (Node.fresh .paragraph ns).identity

/-- Why a text is left as it is: there is too little room, it is not plain, or one line is enough for its words. -/
def Unbroken (ns : List Node) (room : Int) : Prop :=
  room < minReflowWidth ∨ (∃ n ∈ ns, plainText? n = none) ∨
    ∃ words, plainWords? ns = some words ∧ (words.length < 2 ∨ (Text.extent words : Int) ≤ room)

/-- What an attempt within `room` says of a text. -/
def Verdict (ns : List Node) (room : Int) : Option (List Text) → Prop
  | some lines => Broken ns room lines
  | none => Unbroken ns room

theorem exists_of_mapM_plainText?_eq_none {ns : List Node} (mixed : ns.mapM plainText? = none) :
    ∃ n ∈ ns, plainText? n = none := by
  induction ns with
  | nil => exact nomatch mixed
  | cons n ns ih =>
    cases first : plainText? n with
    | none => exact ⟨n, List.mem_cons_self, first⟩
    | some t =>
      cases rest : ns.mapM plainText? with
      | none =>
        obtain ⟨m, inside, other⟩ := ih rest
        exact ⟨m, List.mem_cons_of_mem _ inside, other⟩
      | some ts => simp [List.mapM_cons, first, rest] at mixed

theorem wrappedLines?_verdict (ns : List Node) (room : Int) : Verdict ns room (wrappedLines? ns room) := by
  unfold wrappedLines?
  by_cases narrow : room < minReflowWidth
  · rw [if_pos narrow]
    exact Or.inl narrow
  rw [if_neg narrow]
  have wide : (10 : Int) ≤ room := Int.not_lt.mp narrow
  cases plain : ns.mapM plainText? with
  | none => exact Or.inr (Or.inl (exists_of_mapM_plainText?_eq_none plain))
  | some texts =>
    have words : plainWords? ns = some (Text.words texts.flatten) := by rw [plainWords?, plain, Option.map_some]
    have solid : ∀ w ∈ Text.words texts.flatten, Text.Solid w := fun w => Text.solid_of_mem_words
    have filled := Text.filled room.toNat (Text.words texts.flatten)
    simp only [bind, Option.bind, Text.wrap, List.length_map]
    split
    · rename_i few
      refine Or.inr (Or.inr ⟨_, words, (filled.one_line few).imp_right fun fits => ?_⟩)
      omega
    · rename_i several
      have kept := Text.words_wrap room.toNat solid
      refine ⟨wide, ?_, ?_, ⟨_, _, words, filled, rfl⟩, ?_, Node.identity_congr_words plain kept⟩
      · rw [List.length_map]
        exact Nat.not_lt.mp several
      · intro line inside broken
        obtain ⟨ws, part, rfl⟩ := List.mem_map.mp inside
        have own : ∀ w ∈ ws, Text.Solid w := fun w among =>
          solid w (filled.all ▸ List.mem_flatten.mpr ⟨ws, part, among⟩)
        exact absurd (Text.of_mem_joinWith_space own broken) (by decide)
      · rw [words]
        exact congrArg some kept.symm

/-- There is one way to break a text: a text that can be broken is, and into these lines. -/
theorem wrappedLines?_eq_some_iff {ns : List Node} {room : Int} {lines : List Text} :
    wrappedLines? ns room = some lines ↔ Broken ns room lines := by
  constructor
  · intro wrapped
    have verdict := wrappedLines?_verdict ns room
    rw [wrapped] at verdict
    exact verdict
  · rintro ⟨wide, several, -, ⟨words, filling, plain, filled, rfl⟩, -, -⟩
    obtain ⟨texts, all, rfl⟩ := Option.map_eq_some_iff.mp plain
    obtain rfl := Text.filled_iff.mp filled
    rw [wrappedLines?, if_neg (Int.not_lt.mpr wide)]
    simp only [all, bind, Option.bind]
    exact if_neg (Nat.not_lt.mpr several)

/-! ### Attempts -/

/-- An attempt to wrap the text of a link: the record of the link, the columns there are for the text, and the lines
that it has been broken into. -/
structure Attempt where
  record : LinkRecord
  room : Int
  lines? : Option (List Text)

namespace Attempt

def place (a : Attempt) : Nat := a.record.place

def text? (a : Attempt) : Option Text := a.lines?.map (Text.joinWith ['\n'])

def apply (a : Attempt) (f : Forest) : Forest :=
  match a.text? with
  | some text => f.setChildren a.record.node.tag (.link a.record.node.form a.record.node.position) [.leaf (.text text)]
  | none => f

end Attempt

/-- The attempt on the next link of a line: made if the link is inline, has a definition to come, and would overflow. -/
def Reflowing.attempt? (report : Report) (width : Int) (s : Reflowing) (r : LinkRecord × Position) : Option Attempt :=
  let (record, position) := r
  let children := s.forest.childrenOf record.node.tag
  let column := s.column + (position.start.column - s.lastEnd)
  if record.node.form.isReference || (report.resolvedUrl record.id).isNone then none
  else
    match (Node.fresh .paragraph children).identity with
    | .error _ => none
    | .ok identity =>
      if column + identity.length + 2 > width then
        some ⟨record, width - column - 2, wrappedLines? children (width - column - 2)⟩
      else none

/-- A step of reflowing does what the attempt says, and counts it if it has broken a text. -/
theorem Reflowing.step_attempt {report : Report} {width : Int} {s s' : Reflowing} {q : LinkRecord × Position}
    (taken : Reflowing.step report width s q = .ok s') :
    s'.forest = (s.attempt? report width q).elim s.forest (·.apply s.forest) ∧
      s'.wrapped = s.wrapped + (s.attempt? report width q).toList.countP (·.lines?.isSome) := by
  obtain ⟨r, position⟩ := q
  simp only [Reflowing.step] at taken
  simp only [Reflowing.attempt?]
  split at taken
  · rename_i stays
    obtain rfl := Except.ok.inj taken
    rw [if_pos stays]
    exact ⟨rfl, rfl⟩
  · rename_i goes
    rw [if_neg goes]
    cases identity : (Node.fresh .paragraph (s.forest.childrenOf r.node.tag)).identity with
    | error e => simp [identity, bind, Except.bind] at taken
    | ok text =>
      simp only [identity, bind, Except.bind] at taken ⊢
      generalize s.column + (position.start.column - s.lastEnd) = column at taken ⊢
      split at taken
      · cases taken
      · obtain rfl := Except.ok.inj taken
        by_cases tooWide : column + text.length + 2 > width
        · simp only [if_pos tooWide, Option.elim_some, Attempt.apply, Attempt.text?]
          cases wrappedLines? (s.forest.childrenOf r.node.tag) (width - column - 2) <;> exact ⟨rfl, rfl⟩
        · simp only [if_neg tooWide]
          exact ⟨rfl, rfl⟩

theorem Reflowing.of_attempt? {report : Report} {width : Int} {s : Reflowing} {q : LinkRecord × Position} {a : Attempt}
    (made : s.attempt? report width q = some a) :
    a.record = q.1 ∧ q.1.node.form.isReference = false ∧ (report.resolvedUrl q.1.id).isSome ∧
      a.lines? = wrappedLines? (s.forest.childrenOf q.1.node.tag) a.room := by
  obtain ⟨r, position⟩ := q
  simp only [Reflowing.attempt?] at made
  split at made
  · exact nomatch made
  · rename_i goes
    obtain ⟨inline, leads⟩ : r.node.form.isReference = false ∧ (report.resolvedUrl r.id).isSome := by
      simpa [Option.isSome_iff_ne_none] using goes
    split at made
    · exact nomatch made
    · split at made
      · obtain rfl := Option.some.inj made
        exact ⟨rfl, inline, leads, rfl⟩
      · exact nomatch made

/-- The attempts on the links of a line, as long as nothing fails. -/
def lineAttempts (report : Report) (width : Int) : Reflowing → List (LinkRecord × Position) → List Attempt
  | _, [] => []
  | s, q :: qs => (s.attempt? report width q).toList ++
    match Reflowing.step report width s q with
    | .ok s' => lineAttempts report width s' qs
    | .error _ => []

/-- The attempts on the links of lines. -/
def attemptsFrom (report : Report) (width : Int) : Forest × Nat → List (List (LinkRecord × Position)) → List Attempt
  | _, [] => []
  | state, qs :: lines => lineAttempts report width ⟨state.1, state.2, 0, 1⟩ qs ++
    match reflowLine report width state qs with
    | .ok state' => attemptsFrom report width state' lines
    | .error _ => []

/-- The attempts that `reflow` makes. -/
def attempts (forest : Forest) (index : Index) (report : Report) (width : Int) : List Attempt :=
  attemptsFrom report width (forest, 0) (recordsByLine index)

/-- The texts that attempts have broken, by the places of their links. -/
def newText (as : List Attempt) (place : Nat) : Option Text := (as.find? (·.place = place)).bind Attempt.text?

theorem newText_none {as : List Attempt} {place : Nat} (apart : ∀ a ∈ as, a.place ≠ place) :
    newText as place = none := by
  rw [newText, List.find?_eq_none.mpr fun a inside => by simpa using apart a inside, Option.bind_none]

theorem newText_concat {as : List Attempt} {b : Attempt} (apart : ∀ a ∈ as, a.place ≠ b.place) :
    newText (as ++ [b]) = Function.update (newText as) b.place b.text? := by
  funext place
  by_cases own : place = b.place
  · have earlier : as.find? (·.place = b.place) = none :=
      List.find?_eq_none.mpr fun a inside => by simpa using apart a inside
    rw [own, Function.update_self, newText, List.find?_append, earlier]
    simp
  · have other : [b].find? (·.place = place) = none := by simp [Ne.symm own]
    rw [Function.update_of_ne own, newText, List.find?_append, other, Option.or_none, newText]

/-! ### Runs -/

theorem Report.resolvedUrl_isSome {report : Report} {id : Nat} :
    (report.resolvedUrl id).isSome ↔ ∃ url, report.urls id = [url] := by
  rw [Report.resolvedUrl]
  rcases report.urls id with _ | ⟨url, _ | ⟨other, urls⟩⟩
  · simp
  · exact ⟨fun _ => ⟨url, rfl⟩, fun _ => rfl⟩
  · simp

theorem wrappedLines?_rewrap (texts : Nat → Option Text) (ns : List Node) (room : Int) :
    wrappedLines? (ns.map (Node.rewrap texts)) room = wrappedLines? ns room := by
  have same : (ns.map (Node.rewrap texts)).mapM plainText? = ns.mapM plainText? := by
    cases plain : ns.mapM plainText? with
    | some old => rw [map_of_mapM_plainText? plain fun _ => rfl, plain]
    | none =>
      cases plain' : (ns.map (Node.rewrap texts)).mapM plainText? with
      | none => rfl
      | some old => rw [Node.eq_of_mapM_plainText?_rewrap plain', plain] at plain'; exact nomatch plain'
  rw [wrappedLines?, wrappedLines?, same]

/-- An attempt on an inline link of the document that has a position and an identity with one destination, and what
becomes of the text of the link. -/
structure Attempt.Sound (report : Report) (index : Index) (tree : Node) (a : Attempt) : Prop where
  recorded : a.record ∈ index.links
  inline : a.record.node.form.isReference = false
  located : a.record.node.position.isSome
  leads : ∃ url, report.urls a.record.id = [url]
  judged : ∃ ns, .branch a.record.node.tag (.link a.record.node.form a.record.node.position) ns ∈ tree.subnodes ∧
    Verdict ns a.room a.lines?

theorem place_ne_of_nodup {visited : List LinkRecord} {q : LinkRecord × Position} {qs : List (LinkRecord × Position)}
    (once : ((visited ++ (q :: qs).map (·.1)).map LinkRecord.place).Nodup) : ∀ r ∈ visited, r.place ≠ q.1.place := by
  intro r earlier
  rw [List.map_append, List.map_cons, List.map_cons] at once
  exact (List.nodup_append.mp once).2.2 _ (List.mem_map_of_mem earlier) _ List.mem_cons_self

/-- How far reflowing has come: the links that have been visited, the attempts that have been made on them, and what
has become of the forest. -/
structure Reflowing.Progress (report : Report) (index : Index) (f : Forest) (visited : List LinkRecord) (as : List Attempt)
    (g : Forest) (wrapped : Nat) : Prop where
  forest : g = { f with document := f.document.rewrap (newText as) }
  wrapped : wrapped = as.countP (·.lines?.isSome)
  sound : ∀ a ∈ as, a.Sound report index f.document
  visits : (as.map (·.record)).Sublist visited

namespace Reflowing.Progress

variable {report : Report} {index : Index} {f g : Forest} {visited : List LinkRecord} {as : List Attempt} {wrapped : Nat}
  {s : Reflowing}

theorem start : Progress report index f [] [] f 0 := by
  have same : f.document.rewrap (newText []) = f.document := Node.rebuild_eq_self fun _ _ _ _ => rfl
  refine ⟨?_, rfl, fun _ absent => absurd absent List.not_mem_nil, .slnil⟩
  rw [same]

theorem wraps (progress : Progress report index f visited as g wrapped) :
    Wraps report index f.document (newText as) := by
  intro place text new
  obtain ⟨a, found, broken⟩ := Option.bind_eq_some_iff.mp new
  have own : a.place = place := by simpa using List.find?_some found
  obtain ⟨lines, wrapped, rfl⟩ := Option.map_eq_some_iff.mp broken
  have sound := progress.sound a (List.mem_of_find?_eq_some found)
  obtain ⟨ns, member, judged⟩ := sound.judged
  rw [wrapped] at judged
  obtain ⟨old, plain, words⟩ := Option.map_eq_some_iff.mp judged.words
  exact ⟨a.record, old, ⟨sound.recorded, sound.inline, Report.resolvedUrl_isSome.mpr sound.leads, ns, member, plain⟩,
    own, words.symm⟩

theorem reflowed (progress : Progress report index f visited as g wrapped) : Reflowed report index f g := by
  rw [progress.forest]
  exact ⟨rfl, rfl, _, progress.wraps, rfl⟩

/-- The forest after an attempt on a link that has not been visited before. -/
theorem apply (progress : Progress report index f visited as g wrapped) (sole : f.Sole) {a : Attempt} {ns : List Node}
    (member : .branch a.record.node.tag (.link a.record.node.form a.record.node.position) ns ∈ g.document.subnodes)
    (apart : ∀ b ∈ as, b.place ≠ a.place) :
    a.apply g = { f with document := f.document.rewrap (newText (as ++ [a])) } := by
  rw [newText_concat apart, Attempt.apply]
  cases a.text? with
  | none =>
    rw [Function.update_eq_self_iff.mpr (newText_none apart).symm]
    exact progress.forest
  | some text =>
    dsimp only
    rw [(progress.reflowed.sole sole).setChildren member]
    obtain rfl := progress.forest
    obtain ⟨ms, old, -⟩ := Node.of_mem_rewrap member
    have alone : ∀ t c ks, .branch t c ks ∈ f.document.subnodes → t.place = a.record.node.tag.place →
        t = a.record.node.tag := fun t c ks within place =>
      (Node.branch.inj (sole.distinct.branch_inj within old place)).1
    rw [Attempt.place, LinkRecord.place, ← Node.rewrap_update alone text]

theorem step (progress : Progress report index f visited as s.forest s.wrapped) (sole : f.Sole)
    (tracks : Tracks index.links f.document) (collectable : f.document.collectable) (width : Int)
    {q : LinkRecord × Position} (inside : q.1 ∈ index.links) (located : q.1.node.position = some q.2)
    (fresh : ∀ r ∈ visited, r.place ≠ q.1.place) : ∃ s', Reflowing.step report width s q = .ok s' ∧
      Progress report index f (visited ++ [q.1]) (as ++ (s.attempt? report width q).toList) s'.forest s'.wrapped := by
  obtain ⟨s', taken, -⟩ := progress.reflowed.step sole tracks collectable width inside
  obtain ⟨forest, wrapped⟩ := Reflowing.step_attempt taken
  refine ⟨s', taken, ?_⟩
  rw [forest, wrapped]
  cases made : s.attempt? report width q with
  | none =>
    rw [Option.toList_none, List.append_nil]
    exact ⟨progress.forest, progress.wrapped, progress.sound,
      progress.visits.trans (List.sublist_append_left _ _)⟩
  | some a =>
    obtain ⟨own, inline, leads, lines⟩ := Reflowing.of_attempt? made
    have apart : ∀ b ∈ as, b.place ≠ a.place := by
      intro b earlier
      rw [Attempt.place, Attempt.place, own]
      exact fresh b.record (progress.visits.subset (List.mem_map_of_mem earlier))
    obtain ⟨ms, member, children⟩ := progress.reflowed.link sole tracks inside
    rw [← own] at inside inline leads located member
    have applied := progress.apply sole member apart
    rw [progress.forest] at member
    obtain ⟨ns, old, rfl⟩ := Node.of_mem_rewrap member
    rw [Node.rewrapped_of_none (newText_none apart)] at children
    rw [children, wrappedLines?_rewrap] at lines
    have sound : a.Sound report index f.document :=
      ⟨inside, inline, located ▸ rfl, Report.resolvedUrl_isSome.mp leads, ns, old,
        lines ▸ wrappedLines?_verdict ns a.room⟩
    refine ⟨applied, ?_, ?_, ?_⟩
    · rw [progress.wrapped, Option.toList_some, List.countP_append]
    · exact List.forall_mem_append.mpr ⟨progress.sound, List.forall_mem_singleton.mpr sound⟩
    · rw [Option.toList_some, List.map_append, List.map_singleton, own]
      exact progress.visits.append (List.Sublist.refl _)

theorem line (progress : Progress report index f visited as s.forest s.wrapped) (sole : f.Sole)
    (tracks : Tracks index.links f.document) (collectable : f.document.collectable) (width : Int)
    {qs : List (LinkRecord × Position)} (known : ∀ q ∈ qs, q.1 ∈ index.links ∧ q.1.node.position = some q.2)
    (once : ((visited ++ qs.map (·.1)).map LinkRecord.place).Nodup) :
    ∃ s', qs.foldlM (Reflowing.step report width) s = .ok s' ∧ Progress report index f (visited ++ qs.map (·.1))
      (as ++ lineAttempts report width s qs) s'.forest s'.wrapped := by
  induction qs generalizing s visited as with
  | nil =>
    refine ⟨s, rfl, ?_⟩
    rw [List.map_nil, lineAttempts, List.append_nil, List.append_nil]
    exact progress
  | cons q qs ih =>
    have fresh := place_ne_of_nodup once
    obtain ⟨inside, located⟩ := known q List.mem_cons_self
    obtain ⟨next, taken, progress⟩ := progress.step sole tracks collectable width inside located fresh
    rw [List.map_cons, List.append_cons] at once ⊢
    obtain ⟨s', run, progress⟩ := ih progress (fun q' later => known q' (List.mem_cons_of_mem _ later)) once
    refine ⟨s', ?_, ?_⟩
    · rw [List.foldlM_cons, taken]
      exact run
    · rw [lineAttempts, taken, ← List.append_assoc]
      exact progress

theorem lines (progress : Progress report index f visited as g wrapped) (sole : f.Sole)
    (tracks : Tracks index.links f.document) (collectable : f.document.collectable) (width : Int)
    {ls : List (List (LinkRecord × Position))}
    (known : ∀ q ∈ ls.flatten, q.1 ∈ index.links ∧ q.1.node.position = some q.2)
    (once : ((visited ++ ls.flatten.map (·.1)).map LinkRecord.place).Nodup) :
    ∃ g' wrapped', ls.foldlM (reflowLine report width) (g, wrapped) = .ok (g', wrapped') ∧
      Progress report index f (visited ++ ls.flatten.map (·.1)) (as ++ attemptsFrom report width (g, wrapped) ls)
        g' wrapped' := by
  induction ls generalizing g wrapped visited as with
  | nil =>
    refine ⟨g, wrapped, rfl, ?_⟩
    rw [List.flatten_nil, List.map_nil, attemptsFrom, List.append_nil, List.append_nil]
    exact progress
  | cons qs ls ih =>
    have visits : visited ++ (qs :: ls).flatten.map (·.1) = visited ++ qs.map (·.1) ++ ls.flatten.map (·.1) := by
      rw [List.flatten_cons, List.map_append, List.append_assoc]
    rw [List.flatten_cons] at known
    rw [visits] at once ⊢
    have first : ((visited ++ qs.map (·.1)).map LinkRecord.place).Nodup :=
      once.sublist ((List.sublist_append_left _ _).map _)
    have start : Progress report index f visited as (Reflowing.mk g wrapped 0 1).forest
        (Reflowing.mk g wrapped 0 1).wrapped := progress
    obtain ⟨s, run, progress⟩ := start.line sole tracks collectable width
      (fun q inside => known q (List.mem_append_left _ inside)) first
    have taken : reflowLine report width (g, wrapped) qs = .ok (s.forest, s.wrapped) := by
      rw [reflowLine, run]
      rfl
    obtain ⟨g', wrapped', run', progress⟩ := ih progress (fun q later => known q (List.mem_append_right _ later)) once
    refine ⟨g', wrapped', ?_, ?_⟩
    · rw [List.foldlM_cons, taken]
      exact run'
    · rw [attemptsFrom, taken, ← List.append_assoc]
      exact progress

/-- Reflowing a document comes to an end, after all its links with positions have been visited. -/
theorem run (sole : f.Sole) (tracks : Tracks index.links f.document) (collectable : f.document.collectable)
    (report : Report) (width : Int) : ∃ g wrapped, reflow f index report width = .ok (g, wrapped) ∧
      Progress report index f ((recordsByLine index).flatten.map (·.1)) (attempts f index report width) g wrapped := by
  have once := recordsByLine_nodup (Rewriting.Tracks_nodup sole.distinct tracks)
  exact start.lines sole tracks collectable width (fun q => of_mem_recordsByLine) once

end Reflowing.Progress

/-- Reflowing ends with the document in which the texts of exactly those links are broken into lines on which an attempt
has been made with success, and tells their number. -/
theorem reflow_wraps (next : Nat) (tag : Tag) (children : List Node) (width : Int) :
    let (tree, fresh) := Node.number next (.branch tag .document children)
    match Index.empty.collect tree with
    | .error _ => tree.collectable = false
    | .ok index =>
      let made := attempts (Forest.ofDocument tree fresh) index (Report.detect index) width
      reflow (Forest.ofDocument tree fresh) index (Report.detect index) width =
          .ok (Forest.ofDocument (tree.rewrap (newText made)) fresh, made.countP (·.lines?.isSome)) ∧
        (made.map Attempt.place).Nodup ∧ ∀ a ∈ made, a.Sound (Report.detect index) index tree := by
  have document := documentTree_number next tag children
  generalize Node.number next (.branch tag .document children) = numbered at document
  obtain ⟨tree, fresh⟩ := numbered
  dsimp only at document ⊢
  cases collect : Index.empty.collect tree with
  | error e => exact Node.collectable_eq collect
  | ok index =>
    dsimp only
    have tracks := document.tracks (Index.collected collect)
    have collectable : tree.collectable := Node.collectable_eq collect
    have sole : (Forest.ofDocument tree fresh).Sole := ⟨rfl, document.distinct⟩
    obtain ⟨g, wrapped, done, progress⟩ := Reflowing.Progress.run sole tracks collectable (Report.detect index) width
    have once := recordsByLine_nodup (Rewriting.Tracks_nodup document.distinct tracks)
    refine ⟨?_, ?_, progress.sound⟩
    · rw [done, progress.forest, progress.wrapped]
      rfl
    · have places := progress.visits.map LinkRecord.place
      rw [List.map_map] at places
      exact once.sublist places

example : wrappedLines? [.leaf (.text "alpha  beta".toList), .leaf (.lineBreak true), .leaf (.text "gamma-delta".toList)] 12 =
    some ["alpha beta".toList, "gamma-delta".toList] := by decide

end MarkdownLinks
