import Mathlib.Data.List.Perm.Basic
import MarkdownLinks.Proofs.Link.Sections

/-!
Where new definitions go. A section calls for the definitions of the references in it; what is staged for a section
are the definitions it calls for and no section before it does. Placing attaches to each section what is staged for
it, under new tags.
-/

namespace MarkdownLinks

/-! ### What one section gets -/

/-- The definitions that the nodes of a section call for, in walk order. -/
def calls (index : Index) (report : Report) (s : List Node) : List NewDefinition :=
  (s.flatMap Node.subnodes).filterMap (newDefinition? index report)

/-- Adds a definition to those found, unless an earlier section or this one has it. -/
def choose (placed : List Nat) (found : List NewDefinition) (d : NewDefinition) : List NewDefinition :=
  if placed.contains d.id || found.any (·.id = d.id) then found else found ++ [d]

/-- Of the definitions called for, one for each id that has not been placed. -/
structure Chosen (placed : List Nat) (asked found : List NewDefinition) : Prop where
  nodup : (found.map (·.id)).Nodup
  called : ∀ d ∈ found, d ∈ asked ∧ d.id ∉ placed
  all : ∀ d ∈ asked, d.id ∉ placed → d.id ∈ found.map (·.id)

theorem Chosen.nil (placed : List Nat) : Chosen placed [] [] :=
  ⟨List.nodup_nil, fun _ inside => absurd inside List.not_mem_nil, fun _ inside => absurd inside List.not_mem_nil⟩

theorem Chosen.choose {placed : List Nat} {asked found : List NewDefinition} (before : Chosen placed asked found)
    (d : NewDefinition) : Chosen placed (asked ++ [d]) (choose placed found d) := by
  unfold MarkdownLinks.choose
  by_cases known : d.id ∈ placed ∨ d.id ∈ found.map (·.id)
  · have skip : (placed.contains d.id || found.any (·.id = d.id)) = true := by simpa using known
    rw [if_pos skip]
    refine ⟨before.nodup, fun e inside => ?_, fun e inside absent => ?_⟩
    · exact ⟨List.mem_append_left _ (before.called e inside).1, (before.called e inside).2⟩
    · rcases List.mem_append.mp inside with old | new
      · exact before.all e old absent
      · obtain rfl := List.mem_singleton.mp new
        exact known.resolve_left absent
  · have take : ¬ (placed.contains d.id || found.any (·.id = d.id)) = true := by simpa using known
    rw [not_or] at known
    rw [if_neg take]
    refine ⟨?_, fun e inside => ?_, fun e inside absent => ?_⟩
    · rw [List.map_append, List.map_singleton, List.nodup_append]
      refine ⟨before.nodup, List.nodup_singleton _, fun a old b new => ?_⟩
      rw [List.mem_singleton.mp new]
      exact fun same => known.2 (same ▸ old)
    · rcases List.mem_append.mp inside with old | new
      · exact ⟨List.mem_append_left _ (before.called e old).1, (before.called e old).2⟩
      · obtain rfl := List.mem_singleton.mp new
        exact ⟨List.mem_append_right _ new, known.1⟩
    · rw [List.map_append, List.mem_append]
      rcases List.mem_append.mp inside with old | new
      · exact Or.inl (before.all e old absent)
      · exact Or.inr (List.mem_map_of_mem new)

theorem Chosen.run {placed : List Nat} {asked found : List NewDefinition} (before : Chosen placed asked found)
    (ds : List NewDefinition) : Chosen placed (asked ++ ds) (ds.foldl (MarkdownLinks.choose placed) found) := by
  induction ds generalizing asked found with
  | nil => rwa [List.append_nil]
  | cons d ds ih =>
    rw [← List.singleton_append, ← List.append_assoc, List.foldl_append]
    exact ih (before.choose d)

theorem newDefinitions_eq (index : Index) (report : Report) (placed : List Nat) (s : List Node) :
    newDefinitions index report placed s = (calls index report s).foldl (choose placed) [] := by
  rw [calls, ← Node.walkAll_nodes none, List.filterMap_map, List.foldl_filterMap, newDefinitions]
  congr 1
  funext found v
  simp only [Function.comp_apply]
  cases newDefinition? index report v.node <;> rfl

theorem chosen (index : Index) (report : Report) (placed : List Nat) (s : List Node) :
    Chosen placed (calls index report s) (newDefinitions index report placed s) := by
  rw [newDefinitions_eq]
  exact (Chosen.nil placed).run (calls index report s)

/-! ### What all sections get -/

/-- The definitions staged for each section when some have been placed before. -/
def staged (index : Index) (report : Report) : List Nat → List (List Node) → List (List NewDefinition)
  | _, [] => []
  | placed, s :: rest =>
    let ds := newDefinitions index report placed s
    ds :: staged index report (placed ++ ds.map (·.id)) rest

variable {index : Index} {report : Report}

theorem staged_fresh {placed : List Nat} {ss : List (List Node)} {d : NewDefinition}
    (inside : d ∈ (staged index report placed ss).flatten) : d.id ∉ placed := by
  induction ss generalizing placed with
  | nil => exact nomatch inside
  | cons s ss ih =>
    rw [staged, List.flatten_cons] at inside
    rcases List.mem_append.mp inside with first | later
    · exact ((chosen index report placed s).called d first).2
    · exact fun old => ih later (List.mem_append_left _ old)

theorem staged_nodup (placed : List Nat) (ss : List (List Node)) :
    ((staged index report placed ss).flatten.map (·.id)).Nodup := by
  induction ss generalizing placed with
  | nil => exact List.nodup_nil
  | cons s ss ih =>
    rw [staged, List.flatten_cons, List.map_append, List.nodup_append]
    refine ⟨(chosen index report placed s).nodup, ih _, fun a first b later => ?_⟩
    obtain ⟨d, inside, rfl⟩ := List.mem_map.mp later
    exact fun same => staged_fresh inside (List.mem_append_right _ (same ▸ first))

theorem staged_all {placed : List Nat} {ss : List (List Node)} {s : List Node} (among : s ∈ ss) {d : NewDefinition}
    (called : d ∈ calls index report s) (absent : d.id ∉ placed) :
    d.id ∈ (staged index report placed ss).flatten.map (·.id) := by
  induction ss generalizing placed with
  | nil => exact nomatch among
  | cons s' ss ih =>
    rw [staged, List.flatten_cons, List.map_append, List.mem_append]
    by_cases here : d.id ∈ (newDefinitions index report placed s').map (·.id)
    · exact Or.inl here
    · rcases List.mem_cons.mp among with rfl | later
      · exact absurd ((chosen index report placed s).all d called absent) here
      · exact Or.inr (ih later fun old => (List.mem_append.mp old).elim absent here)

/-- What is staged for a section is called for there, and in no section before. -/
theorem staged_first {placed : List Nat} {ss : List (List Node)} {i : Nat} {ds : List NewDefinition}
    (stage : (staged index report placed ss)[i]? = some ds) {d : NewDefinition} (inside : d ∈ ds) :
    (∃ s, ss[i]? = some s ∧ d ∈ calls index report s) ∧
      ss.findIdx? (fun s => (calls index report s).any (·.id = d.id)) = some i := by
  induction ss generalizing placed i with
  | nil => simp [staged] at stage
  | cons s ss ih =>
    rw [staged] at stage
    rw [List.findIdx?_cons]
    cases i with
    | zero =>
      obtain rfl := Option.some.inj stage
      have called := ((chosen index report placed s).called d inside).1
      refine ⟨⟨s, rfl, called⟩, if_pos ?_⟩
      rw [List.any_eq_true]
      exact ⟨d, called, by simp⟩
    | succ i =>
      obtain ⟨here, first⟩ := ih stage
      have fresh := staged_fresh (List.mem_flatten.mpr ⟨ds, List.mem_of_getElem? stage, inside⟩)
      rw [List.mem_append, not_or] at fresh
      have silent : (calls index report s).any (·.id = d.id) = false := by
        rw [List.any_eq_false]
        intro e called same
        have own : e.id = d.id := by simpa using same
        refine fresh.2 (own ▸ (chosen index report placed s).all e called (own ▸ fresh.1))
      rw [silent, first]
      exact ⟨here, rfl⟩

theorem staged_length (placed : List Nat) (ss : List (List Node)) :
    (staged index report placed ss).length = ss.length := by
  induction ss generalizing placed with
  | nil => rfl
  | cons s ss ih => simp [staged, ih]

/-! ### Definitions as nodes -/

theorem insertByLabel_perm (d : NewDefinition) (ds : List NewDefinition) : (insertByLabel d ds).Perm (d :: ds) := by
  induction ds with
  | nil => exact List.Perm.refl _
  | cons e ds ih =>
    rw [insertByLabel]
    split
    · exact List.Perm.refl _
    · exact (ih.cons e).trans (List.Perm.swap d e ds)

theorem sortByLabel_perm (ds : List NewDefinition) : (sortByLabel ds).Perm ds := by
  induction ds with
  | nil => exact List.Perm.refl _
  | cons d ds ih => exact (insertByLabel_perm d (sortByLabel ds)).trans (ih.cons d)

theorem mem_definitionNodes {fresh : Nat} {ds : List NewDefinition} {n : Node} (inside : n ∈ definitionNodes fresh ds) :
    ∃ d ∈ ds, ∃ place, n = .definition ⟨place, 0⟩ d.label d.target := by
  induction ds generalizing fresh with
  | nil => exact nomatch inside
  | cons d ds ih =>
    rcases List.mem_cons.mp inside with rfl | later
    · exact ⟨d, List.mem_cons_self, fresh, rfl⟩
    · obtain ⟨e, among, same⟩ := ih later
      exact ⟨e, List.mem_cons_of_mem _ among, same⟩

theorem definitionNodes_tags (fresh : Nat) (ds : List NewDefinition) :
    (definitionNodes fresh ds).flatMap Node.tags = Node.freshTags fresh ds.length := by
  induction ds generalizing fresh with
  | nil => rfl
  | cons d ds ih =>
    rw [definitionNodes, List.flatMap_cons, ih, List.length_cons, Nat.add_comm ds.length 1, ← Node.freshTags_append]
    rfl

/-- What is staged for the sections as nodes under new tags. -/
def numbered (fresh : Nat) : List (List NewDefinition) → List (List Node)
  | [] => []
  | ds :: rest => definitionNodes fresh (sortByLabel ds) :: numbered (fresh + ds.length) rest

theorem numbered_length (fresh : Nat) (dss : List (List NewDefinition)) : (numbered fresh dss).length = dss.length := by
  induction dss generalizing fresh with
  | nil => rfl
  | cons ds dss ih => simp [numbered, ih]

theorem numbered_tags (fresh : Nat) (dss : List (List NewDefinition)) :
    (numbered fresh dss).flatten.flatMap Node.tags = Node.freshTags fresh dss.flatten.length := by
  induction dss generalizing fresh with
  | nil => rfl
  | cons ds dss ih =>
    rw [numbered, List.flatten_cons, List.flatMap_append, ih, definitionNodes_tags, (sortByLabel_perm ds).length_eq,
      Node.freshTags_append, List.flatten_cons, List.length_append]

theorem mem_numbered {fresh : Nat} {dss : List (List NewDefinition)} {i : Nat} {defs : List Node}
    (slot : (numbered fresh dss)[i]? = some defs) {n : Node} (inside : n ∈ defs) :
    ∃ ds, dss[i]? = some ds ∧ ∃ d ∈ ds, ∃ place, n = .definition ⟨place, 0⟩ d.label d.target := by
  induction dss generalizing fresh i with
  | nil => simp [numbered] at slot
  | cons ds dss ih =>
    rw [numbered] at slot
    cases i with
    | zero =>
      obtain rfl := Option.some.inj slot
      obtain ⟨d, among, same⟩ := mem_definitionNodes inside
      exact ⟨ds, rfl, d, (sortByLabel_perm ds).mem_iff.mp among, same⟩
    | succ i => exact ih slot

/-! ### Attaching to all sections -/

/-- The sections with the nodes for each attached. -/
def attachAll : List (List Node) → List (List Node) → List (List Node)
  | s :: ss, defs :: more => attach s defs ss.isEmpty :: attachAll ss more
  | _, _ => []

/-- Placing is staging, numbering and attaching. -/
theorem placeInSections_eq (index : Index) (report : Report) (placed : List Nat) (fresh : Nat)
    (ss : List (List Node)) :
    placeInSections index report placed fresh ss =
      ((attachAll ss (numbered fresh (staged index report placed ss))).flatten,
        (staged index report placed ss).flatten.length) := by
  induction ss generalizing placed fresh with
  | nil => rfl
  | cons s ss ih =>
    rw [placeInSections, ih, staged, numbered, attachAll]
    simp only [List.flatten_cons, List.length_append]

theorem attachAll_length {ss defs : List (List Node)} (same : defs.length = ss.length) :
    (attachAll ss defs).length = ss.length := by
  induction ss generalizing defs with
  | nil => simp [attachAll]
  | cons s ss ih =>
    cases defs with
    | nil => simp at same
    | cons d defs => simp [attachAll, ih (by simpa using same)]

theorem attachAll_getElem? {ss defs : List (List Node)} {i : Nat} {s : List Node}
    (slot : (attachAll ss defs)[i]? = some s) :
    ∃ content nodes isLast, ss[i]? = some content ∧ defs[i]? = some nodes ∧ s = attach content nodes isLast := by
  induction ss generalizing defs i with
  | nil => simp [attachAll] at slot
  | cons content ss ih =>
    cases defs with
    | nil => simp [attachAll] at slot
    | cons nodes defs =>
      rw [attachAll] at slot
      cases i with
      | zero => exact ⟨content, nodes, ss.isEmpty, rfl, rfl, (Option.some.inj slot).symm⟩
      | succ i => exact ih slot

theorem mem_attachAll_of_mem {ss defs : List (List Node)} (same : defs.length = ss.length) {n : Node}
    (inside : n ∈ ss.flatten) (shows : n.isBlankLine = false) : n ∈ (attachAll ss defs).flatten := by
  induction ss generalizing defs with
  | nil => exact nomatch inside
  | cons s ss ih =>
    cases defs with
    | nil => simp at same
    | cons nodes defs =>
      rw [attachAll, List.flatten_cons, List.mem_append]
      rcases List.mem_append.mp inside with first | later
      · exact Or.inl (mem_attach_of_mem first shows)
      · exact Or.inr (ih (by simpa using same) later)

theorem attachAll_isCut {first : List Node} {rest : List (List Node)} (cut : IsCut first rest)
    {defs : List (List Node)} (same : defs.length = (first :: rest).length)
    (plain : ∀ nodes ∈ defs, ∀ n ∈ nodes, n.isHeading = false) :
    ∃ first' rest', attachAll (first :: rest) defs = first' :: rest' ∧ IsCut first' rest' := by
  cases defs with
  | nil => simp at same
  | cons nodes defs =>
    refine ⟨_, _, rfl, ?_, fun empty => ?_, fun s inside => ?_⟩
    · exact cut.opening.attach (plain nodes List.mem_cons_self) _
    · cases rest with
      | nil => rfl
      | cons s rest =>
        have filled : first ≠ [] := fun none => nomatch cut.empty none
        exact absurd empty (attach_ne_nil nodes filled)
    · obtain ⟨i, slot⟩ := List.mem_iff_getElem?.mp inside
      obtain ⟨content, more, isLast, old, new, rfl⟩ := attachAll_getElem? slot
      exact (cut.headed content (List.mem_of_getElem? old)).attach
        (plain more (List.mem_cons_of_mem _ (List.mem_of_getElem? new))) isLast

theorem attachAll_flatMap {β : Type} {f : Node → List β} (silent : ∀ n, n.isBlankLine → f n = [])
    (ss defs : List (List Node)) : (attachAll ss defs).flatten.flatMap f =
      (ss.zip defs).flatMap fun p => p.1.flatMap f ++ p.2.flatMap f := by
  induction ss generalizing defs with
  | nil => rfl
  | cons s ss ih =>
    cases defs with
    | nil => rfl
    | cons nodes defs =>
      rw [attachAll, List.flatten_cons, List.flatMap_append, attach_flatMap silent, ih, List.zip_cons_cons,
        List.flatMap_cons]

theorem flatten_flatMap {α β : Type} (f : α → List β) (ss : List (List α)) :
    ss.flatten.flatMap f = ss.flatMap (·.flatMap f) := by
  rw [← List.flatMap_id, List.flatMap_assoc]
  rfl

theorem attachAll_flatMap_perm {β : Type} {f : Node → List β} (silent : ∀ n, n.isBlankLine → f n = [])
    {ss defs : List (List Node)} (same : defs.length = ss.length) :
    ((attachAll ss defs).flatten.flatMap f).Perm (ss.flatten.flatMap f ++ defs.flatten.flatMap f) := by
  have old : ss.flatten.flatMap f = (ss.zip defs).flatMap fun p => p.1.flatMap f := by
    rw [flatten_flatMap, ← List.flatMap_map Prod.fst, List.map_fst_zip same.ge]
  have new : defs.flatten.flatMap f = (ss.zip defs).flatMap fun p => p.2.flatMap f := by
    rw [flatten_flatMap, ← List.flatMap_map Prod.snd, List.map_snd_zip same.le]
  rw [attachAll_flatMap silent, old, new]
  exact (List.flatMap_append_perm _ _ _).symm

theorem attachAll_flatMap_old {β : Type} {f : Node → List β} (silent : ∀ n, n.isBlankLine → f n = [])
    {ss defs : List (List Node)} (same : defs.length = ss.length) (blind : ∀ n ∈ defs.flatten, f n = []) :
    (attachAll ss defs).flatten.flatMap f = ss.flatten.flatMap f := by
  have old : ∀ p ∈ ss.zip defs, p.1.flatMap f ++ p.2.flatMap f = p.1.flatMap f := by
    intro p among
    have new : p.2.flatMap f = [] := List.flatMap_eq_nil_iff.mpr fun n inside =>
      blind n (List.mem_flatten.mpr ⟨p.2, (List.of_mem_zip among).2, inside⟩)
    rw [new, List.append_nil]
  rw [attachAll_flatMap silent, List.flatMap_congr old, ← List.flatMap_map Prod.fst, List.map_fst_zip same.ge,
    flatten_flatMap]

theorem attachAll_flatMap_new {β : Type} {f : Node → List β} (silent : ∀ n, n.isBlankLine → f n = [])
    {ss defs : List (List Node)} (same : defs.length = ss.length) (blind : ∀ n ∈ ss.flatten, f n = []) :
    (attachAll ss defs).flatten.flatMap f = defs.flatten.flatMap f := by
  have new : ∀ p ∈ ss.zip defs, p.1.flatMap f ++ p.2.flatMap f = p.2.flatMap f := by
    intro p among
    have old : p.1.flatMap f = [] := List.flatMap_eq_nil_iff.mpr fun n inside =>
      blind n (List.mem_flatten.mpr ⟨p.1, (List.of_mem_zip among).1, inside⟩)
    rw [old, List.nil_append]
  rw [attachAll_flatMap silent, List.flatMap_congr new, ← List.flatMap_map Prod.snd, List.map_snd_zip same.le,
    flatten_flatMap]

/-! ### What a link calls for -/

namespace Rewriting

/-- An index whose records have followed their links. -/
def settledIndex (report : Report) (index : Index) : Index :=
  { index with links := index.links.map (settleRecord report index) }

variable {seen : List Visit}

theorem referenceRecord?_settled {report : Report} {index : Index} (places : (index.links.map (·.node.tag.place)).Nodup)
    {r : LinkRecord} (inside : r ∈ index.links) (reference : (settle report index r).form.isReference) :
    referenceRecord? (settledIndex report index) (settle report index r).tag = some (settleRecord report index r) := by
  have found : (referenceRecord? (settledIndex report index) (settle report index r).tag).isSome := by
    rw [referenceRecord?, List.find?_isSome]
    refine ⟨settleRecord report index r, List.mem_reverse.mpr (List.mem_map_of_mem inside), ?_⟩
    simpa [settleRecord] using reference
  obtain ⟨r', found⟩ := Option.isSome_iff_exists.mp found
  have own : r'.node.tag = (settle report index r).tag := by
    have held := List.find?_some found
    simp only [Bool.and_eq_true, decide_eq_true_eq] at held
    exact held.1
  obtain ⟨q, among, rfl⟩ := List.mem_map.mp (List.mem_reverse.mp (List.mem_of_find?_eq_some found))
  have place : q.node.tag.place = r.node.tag.place := by
    rw [← settle_place report index q, ← settle_place report index r]
    exact congrArg Tag.place own
  rw [found, List.inj_on_of_nodup_map places among inside place]

/-- A node calls for a definition exactly if it is a link of an identity with one destination. -/
theorem newDefinition?_eq_some_iff {index : Index} (all : index.Collected seen)
    (places : (index.links.map (·.node.tag.place)).Nodup) {n : Node} {d : NewDefinition} :
    newDefinition? (settledIndex (Report.detect index) index) (Report.detect index) n = some d ↔
      ∃ r ∈ index.links, n.tag? = some (settle (Report.detect index) index r).tag ∧
        ∃ t, index.soleTarget? r.identity = some t ∧ d = ⟨r.id, r.identity, t⟩ := by
  constructor
  · intro called
    obtain ⟨tag, tagged, called⟩ := Option.bind_eq_some_iff.mp called
    obtain ⟨r', found, called⟩ := Option.bind_eq_some_iff.mp called
    obtain ⟨url, sole, same⟩ := Option.bind_eq_some_iff.mp called
    have own : r'.node.tag = tag := by
      have held := List.find?_some found
      simp only [Bool.and_eq_true, decide_eq_true_eq] at held
      exact held.1
    obtain ⟨r, inside, rfl⟩ := List.mem_map.mp (List.mem_reverse.mp (List.mem_of_find?_eq_some found))
    have target := all.soleTarget? inside
    change (Report.detect index).resolvedUrl r.id = some url at sole
    rw [sole, Option.map_some] at target
    exact ⟨r, inside, by rw [tagged, ← own]; rfl, _, target.symm, (Option.some.inj same).symm⟩
  · rintro ⟨r, inside, tagged, t, sole, rfl⟩
    obtain ⟨url, resolved, rfl⟩ := Option.map_eq_some_iff.mp ((all.soleTarget? inside).trans sole)
    have reference : (settle (Report.detect index) index r).form.isReference := by
      rw [settle_form resolved]
      rfl
    rw [newDefinition?, tagged]
    simp only [Option.bind_eq_bind, Option.bind_some, referenceRecord?_settled places inside reference]
    change ((Report.detect index).resolvedUrl r.id).bind _ = _
    rw [resolved]
    rfl

end Rewriting

end MarkdownLinks
