import MarkdownLinks.Proofs.Link.Rewrite
import MarkdownLinks.Proofs.Node.Writable

/-!
Taking definitions out of a forest. Each recorded definition is found below what its parent has become, so all of
them go; the lists they leave lose the blank lines that come to lie together, and every other node stays.
-/

namespace MarkdownLinks

def Parent.tag? : Parent → Option Tag
  | .branch tag _ => some tag
  | _ => Option.none

/-- The records of definitions stand for different definitions of the tree, each below what its parent has become. -/
structure TracksDefinitions (records : List DefinitionRecord) (tree : Node) : Prop where
  seen : ∀ d ∈ records, ∃ s ∈ tree.sights, s.tag = d.tag ∧ s.isDefinition ∧
    ∃ t c p c', s.parent = .branch t c ∧ d.parent = .branch p c' ∧ t.place = p.place
  nodup : (records.map (·.tag)).Nodup

namespace TracksDefinitions

variable {records : List DefinitionRecord} {tree : Node}

theorem isDefinition (tracks : TracksDefinitions records tree) (distinct : tree.Distinct) {s : Sight}
    (seen : s ∈ tree.sights) (recorded : s.tag ∈ records.map (·.tag)) : s.isDefinition := by
  obtain ⟨d, inside, same⟩ := List.mem_map.mp recorded
  obtain ⟨s', seen', own, definition, -⟩ := tracks.seen d inside
  rwa [distinct.sights_inj seen seen' (by rw [own, same])]

theorem root_stays (tracks : TracksDefinitions records tree) (distinct : tree.Distinct) :
    tree.carries (records.map (·.tag)) = false := by
  rw [Node.carries]
  cases root : tree.tag? with
  | none => rfl
  | some tag =>
    rw [Option.any_some, List.contains_eq_mem, decide_eq_false_iff_not]
    intro recorded
    obtain ⟨d, inside, rfl⟩ := List.mem_map.mp recorded
    obtain ⟨s, seen, own, -, t, c, p, c', below, -⟩ := tracks.seen d inside
    exact distinct.ne_root seen (by rw [below]; exact Parent.noConfusion) (root.trans (by rw [own]))

/-- Without the recorded definitions, everything else is seen as before. -/
theorem sights_without (tracks : TracksDefinitions records tree) (distinct : tree.Distinct) :
    (tree.without (records.map (·.tag))).sights = tree.sights.filter (·.tag ∉ records.map (·.tag)) :=
  Node.sightsFrom_without (fun _ seen recorded => tracks.isDefinition distinct seen recorded)
    (tracks.root_stays distinct)

theorem distinct_without (tracks : TracksDefinitions records tree) (distinct : tree.Distinct) :
    (tree.without (records.map (·.tag))).Distinct := by
  rw [Node.Distinct, Node.tags, tracks.sights_without distinct]
  exact distinct.sublist ((List.filter_sublist.map _).map _)

theorem head {d : DefinitionRecord} (tracks : TracksDefinitions (d :: records) tree) : TracksDefinitions [d] tree :=
  ⟨fun e inside => tracks.seen e (by rw [List.mem_singleton.mp inside]; exact List.mem_cons_self),
    List.nodup_singleton _⟩

theorem tail {d : DefinitionRecord} (tracks : TracksDefinitions (d :: records) tree) (distinct : tree.Distinct) :
    TracksDefinitions records (tree.without [d.tag]) := by
  obtain ⟨absent, nodup⟩ := List.nodup_cons.mp tracks.nodup
  refine ⟨fun e inside => ?_, nodup⟩
  obtain ⟨s, seen, own, rest⟩ := tracks.seen e (List.mem_cons_of_mem _ inside)
  refine ⟨s, ?_, own, rest⟩
  have visible : s ∈ (tree.without ([d].map (·.tag))).sights := by
    rw [tracks.head.sights_without distinct, List.mem_filter]
    refine ⟨seen, ?_⟩
    have other : e.tag ≠ d.tag := fun same => absent (List.mem_map.mpr ⟨e, inside, same⟩)
    simpa [own] using other
  exact visible

theorem filter (tracks : TracksDefinitions records tree)
    (p : DefinitionRecord → Bool) : TracksDefinitions (records.filter p) tree :=
  ⟨fun d inside => tracks.seen d (List.mem_of_mem_filter inside), tracks.nodup.sublist (List.filter_sublist.map _)⟩

end TracksDefinitions

/-! ### The definitions go -/

theorem dropDefinition_eq {d : DefinitionRecord} {records : List DefinitionRecord} {f : Forest} (sole : f.Sole)
    (tracks : TracksDefinitions (d :: records) f.document) (parents : List (Tag × Container)) :
    ∃ parents', dropDefinition (f, parents) d = ({ f with document := f.document.without [d.tag] }, parents') ∧
      ∀ t, t ∈ parents'.map Prod.fst ↔ t ∈ parents.map Prod.fst ∨ d.parent.tag? = some t := by
  obtain ⟨s, seen, own, definition, t, c, p, c', below, parent, place⟩ := tracks.seen d List.mem_cons_self
  have held := sole.holds seen below place c'
  have dropped := sole.mapChildren seen below place (g := (·.filter fun n => n.tag? ≠ some d.tag))
    fun ns others => List.filter_eq_self.mpr fun m inside => by simpa [own] using others m inside
  have carried : (fun m : Node => decide (m.tag? ≠ some d.tag)) = fun m => !m.carries [d.tag] := by
    funext m
    unfold Node.carries
    cases m.tag? <;> simp
  rw [own] at held
  rw [dropDefinition, parent]
  simp only [held, if_true, dropped]
  rw [carried]
  refine ⟨_, rfl, fun u => ?_⟩
  by_cases known : p ∈ parents.map Prod.fst
  · have noted : parents.any (·.1 = p) := by simpa using known
    rw [if_pos noted]
    constructor
    · exact Or.inl
    · rintro (old | new)
      · exact old
      · rwa [← Option.some.inj new]
  · have other : ¬ parents.any (·.1 = p) := by simpa using known
    rw [if_neg other, List.map_append, List.mem_append, List.map_singleton, List.mem_singleton, Parent.tag?,
      Option.some.injEq, eq_comm (a := p)]

theorem dropDefinitions_from {records : List DefinitionRecord} {f : Forest} (sole : f.Sole)
    (tracks : TracksDefinitions records f.document) (parents : List (Tag × Container)) :
    ∃ parents', records.foldl dropDefinition (f, parents) =
      ({ f with document := f.document.without (records.map (·.tag)) }, parents') ∧
      ∀ t, t ∈ parents'.map Prod.fst ↔ t ∈ parents.map Prod.fst ∨ t ∈ records.filterMap (·.parent.tag?) := by
  induction records generalizing f parents with
  | nil => exact ⟨parents, by rw [List.map_nil, Node.without_nil]; rfl, fun t => by simp⟩
  | cons d records ih =>
    obtain ⟨parents₁, first, noted₁⟩ := dropDefinition_eq sole tracks parents
    have sole' : Forest.Sole { f with document := f.document.without [d.tag] } :=
      ⟨sole.alone, tracks.head.distinct_without sole.distinct⟩
    obtain ⟨parents₂, later, noted₂⟩ := ih sole' (tracks.tail sole.distinct) parents₁
    refine ⟨parents₂, ?_, fun t => ?_⟩
    · rw [List.foldl_cons, first, later, Node.without_without]
      rfl
    · rw [noted₂, noted₁, or_assoc, List.mem_filterMap, List.mem_filterMap, List.exists_mem_cons_iff]

/-- All recorded definitions go, and nothing else; their parents are noted. -/
theorem dropDefinitions_eq {index : Index} {f : Forest} (sole : f.Sole)
    (tracks : TracksDefinitions index.definitions f.document) :
    ∃ parents, dropDefinitions f index =
      ({ f with document := f.document.without (index.definitions.map (·.tag)) }, parents) ∧
      ∀ t, t ∈ parents.map Prod.fst ↔ t ∈ index.definitions.filterMap (·.parent.tag?) := by
  obtain ⟨parents, dropped, noted⟩ := dropDefinitions_from sole tracks []
  exact ⟨parents, dropped, fun t => (noted t).trans (by simp)⟩

/-! ### Blank lines that come to lie together -/

theorem collapseBlankLines_map {f : Node → Node} (blank : ∀ n, (f n).isBlankLine = n.isBlankLine) (skip : Bool)
    (ns : List Node) : (collapseBlankLines skip ns).map f = collapseBlankLines skip (ns.map f) := by
  induction ns generalizing skip with
  | nil => rfl
  | cons n ns ih =>
    rw [List.map_cons, collapseBlankLines, collapseBlankLines, blank]
    cases n.isBlankLine <;> cases skip <;> simp [ih]

theorem collapseBlankLines_twice (skip : Bool) (ns : List Node) :
    collapseBlankLines skip (collapseBlankLines skip ns) = collapseBlankLines skip ns := by
  induction ns generalizing skip with
  | nil => rfl
  | cons n ns ih =>
    cases blank : n.isBlankLine <;> cases skip <;> simp [collapseBlankLines, blank, ih]

theorem mem_of_mem_collapseBlankLines {skip : Bool} {ns : List Node} {n : Node}
    (inside : n ∈ collapseBlankLines skip ns) : n ∈ ns := by
  induction ns generalizing skip with
  | nil => exact inside
  | cons m ns ih =>
    rw [collapseBlankLines] at inside
    split at inside
    · split at inside
      · exact List.mem_cons_of_mem _ (ih inside)
      · exact (List.mem_cons.mp inside).elim (· ▸ List.mem_cons_self) fun later => List.mem_cons_of_mem _ (ih later)
    · exact (List.mem_cons.mp inside).elim (· ▸ List.mem_cons_self) fun later => List.mem_cons_of_mem _ (ih later)

theorem sightsFrom_of_isBlankLine {n : Node} (blank : n.isBlankLine) (parent : Parent) : n.sightsFrom parent = [] := by
  cases n with
  | leaf l => rfl
  | definition tag label target => exact absurd blank Bool.false_ne_true
  | branch tag container ns => exact absurd blank Bool.false_ne_true

theorem tags_of_isBlankLine (n : Node) (blank : n.isBlankLine) : n.tags = [] := by
  rw [Node.tags, Node.sights, sightsFrom_of_isBlankLine blank]
  rfl

theorem collapseBlankLines_flatMap {β : Type} {f : Node → List β} (silent : ∀ n, n.isBlankLine → f n = [])
    (skip : Bool) (ns : List Node) : (collapseBlankLines skip ns).flatMap f = ns.flatMap f := by
  induction ns generalizing skip with
  | nil => rfl
  | cons n ns ih =>
    rw [collapseBlankLines, List.flatMap_cons]
    split
    · rename_i blank
      rw [silent n blank, List.nil_append]
      split
      · exact ih true
      · rw [List.flatMap_cons, ih, silent n blank, List.nil_append]
    · rw [List.flatMap_cons, ih]

/-- The lists of the nodes with these tags without blank lines that follow another. -/
def tidied (root : Option Tag) (tags : List Tag) (t : Tag) (ns : List Node) : List Node :=
  if t ∈ tags then collapseBlankLines (root = some t) ns else ns

theorem tidied_flatMap {β : Type} {f : Node → List β} (silent : ∀ n, n.isBlankLine → f n = []) (root : Option Tag)
    (tags : List Tag) (t : Tag) (ns : List Node) : (tidied root tags t ns).flatMap f = ns.flatMap f := by
  unfold tidied
  split
  · exact collapseBlankLines_flatMap silent _ _
  · rfl

theorem keeps_tidied (root : Option Tag) (tags : List Tag) : Node.Keeps (tidied root tags) := by
  intro t ns m inside
  unfold tidied at inside
  split at inside
  · exact Or.inl (mem_of_mem_collapseBlankLines inside)
  · exact Or.inl inside

theorem sights_tidied (root : Option Tag) (tags : List Tag) (n : Node) :
    (n.rebuild (tidied root tags)).sights = n.sights :=
  Node.sightsFrom_rebuild
    (fun t _ _ _ parent => tidied_flatMap (fun _ blank => sightsFrom_of_isBlankLine blank parent) root tags t _) .none

theorem distinct_tidied {root : Option Tag} {tags : List Tag} {n : Node} (distinct : n.Distinct) :
    (n.rebuild (tidied root tags)).Distinct := by
  rw [Node.Distinct, Node.tags, sights_tidied]
  exact distinct

theorem rebuild_tidied_twice (root : Option Tag) (tag : Tag) (tags : List Tag) (n : Node) :
    (n.rebuild (tidied root [tag])).rebuild (tidied root tags) = n.rebuild (tidied root (tag :: tags)) := by
  rw [Node.rebuild_rebuild]
  · congr 1
    funext t ns
    by_cases first : t = tag <;> by_cases later : t ∈ tags <;>
      simp [tidied, first, later, collapseBlankLines_twice]
  · intro t ns
    unfold tidied
    split
    · exact collapseBlankLines_map (Node.rebuild_isBlankLine _) _ _
    · rfl

theorem tidyChildren_document {f : Forest} (distinct : f.document.Distinct) (parent : Tag × Container) :
    (tidyChildren f parent).document = f.document.rebuild (tidied f.document.tag? [parent.1]) := by
  obtain ⟨tag, container⟩ := parent
  by_cases live : ∃ c ns, .branch tag c ns ∈ f.document.subnodes
  · obtain ⟨c, ns, member⟩ := live
    have found := Forest.branch?_of_mem distinct member
    have children : f.childrenOf tag = ns := by
      rw [Forest.childrenOf, Forest.holder?, found]
      rfl
    have below : ns.map (Node.rebuild (tidied f.document.tag? [tag])) = ns := by
      calc
        ns.map (Node.rebuild (tidied f.document.tag? [tag])) = ns.map id := List.map_congr_left fun m inside =>
          Node.rebuild_eq_self fun t c' ms within => if_neg fun same => by
            rw [List.mem_singleton.mp same] at within
            exact distinct.not_below member inside within
        _ = ns := List.map_id ns
    rw [tidyChildren, Forest.setChildren, found, Option.isSome_some, if_pos rfl, children]
    apply Node.mapBranches_congr
    intro t c' ms member'
    by_cases own : t = tag
    · subst own
      obtain ⟨-, rfl, rfl⟩ := Node.branch.inj (distinct.branch_inj member' member rfl)
      change (if t = t then Node.branch t c' (collapseBlankLines (f.document.tag? = some t) ms) else _) =
        Node.branch t c' (tidied f.document.tag? [t] t (ms.map (Node.rebuild (tidied f.document.tag? [t]))))
      rw [if_pos rfl, below, tidied, if_pos (List.mem_singleton_self t)]
    · simp [tidied, own]
  · have same : f.document.rebuild (tidied f.document.tag? [tag]) = f.document :=
      Node.rebuild_eq_self fun t c ns member => if_neg fun own => by
        rw [List.mem_singleton.mp own] at member
        exact live ⟨c, ns, member⟩
    rw [same, tidyChildren, Forest.setChildren]
    split
    · refine Eq.trans (Node.mapBranches_congr fun t c ns member => ?_) same
      have other : t ≠ tag := fun own => live ⟨c, ns, own ▸ member⟩
      simp [tidied, other]
    · rfl

theorem tidyChildren_fresh (f : Forest) (parent : Tag × Container) : (tidyChildren f parent).fresh = f.fresh := by
  unfold tidyChildren Forest.setChildren
  split <;> rfl

theorem tidy_run {f : Forest} (distinct : f.document.Distinct) (parents : List (Tag × Container)) :
    (parents.foldl tidyChildren f).document = f.document.rebuild (tidied f.document.tag? (parents.map Prod.fst)) ∧
      (parents.foldl tidyChildren f).fresh = f.fresh := by
  induction parents generalizing f with
  | nil => exact ⟨(Node.rebuild_eq_self fun _ _ _ _ => rfl).symm, rfl⟩
  | cons p parents ih =>
    have first := tidyChildren_document distinct p
    obtain ⟨document, fresh⟩ := ih (f := tidyChildren f p) (first ▸ distinct_tidied distinct)
    rw [List.foldl_cons]
    refine ⟨?_, fresh.trans (tidyChildren_fresh f p)⟩
    rw [document, first, Node.rebuild_tag?, rebuild_tidied_twice]
    rfl

/-- Removing takes all recorded definitions out of the document and tidies up the lists that have lost one. -/
theorem removeDefinitions_eq {index : Index} {f : Forest} (sole : f.Sole)
    (tracks : TracksDefinitions index.definitions f.document) :
    (removeDefinitions f index).document = (f.document.without (index.definitions.map (·.tag))).rebuild
      (tidied f.document.tag? (index.definitions.filterMap (·.parent.tag?))) ∧
      (removeDefinitions f index).fresh = f.fresh := by
  obtain ⟨parents, dropped, noted⟩ := dropDefinitions_eq sole tracks
  have distinct : ({ f with document := f.document.without (index.definitions.map (·.tag)) } : Forest).document.Distinct :=
    tracks.distinct_without sole.distinct
  obtain ⟨document, fresh⟩ := tidy_run distinct parents
  have same : tidied f.document.tag? (parents.map Prod.fst) =
      tidied f.document.tag? (index.definitions.filterMap (·.parent.tag?)) := by
    funext t ns
    unfold tidied
    simp only [noted]
  rw [removeDefinitions, dropped]
  refine ⟨document.trans ?_, fresh⟩
  rw [Node.without_tag?, same]

/-- What becomes of the list of a node: the definitions go, and if there were any, so do blank lines. -/
def cleaned (root : Option Tag) (records : List DefinitionRecord) (t : Tag) (ns : List Node) : List Node :=
  tidied root (records.filterMap (·.parent.tag?)) t (ns.filter (!Node.carries (records.map (·.tag)) ·))

theorem keeps_cleaned (root : Option Tag) (records : List DefinitionRecord) : Node.Keeps (cleaned root records) := by
  intro t ns m inside
  exact (keeps_tidied _ _ t _ m inside).imp_left fun kept => (List.mem_filter.mp kept).1

/-- Cleaning a list goes together with changes of its nodes that keep which of them go and which are blank lines. -/
theorem cleaned_map {f : Node → Node} {root : Option Tag} {records : List DefinitionRecord} {t t' : Tag}
    (carried : ∀ n, Node.carries (records.map (·.tag)) (f n) = Node.carries (records.map (·.tag)) n)
    (blank : ∀ n, (f n).isBlankLine = n.isBlankLine)
    (parent : t' ∈ records.filterMap (·.parent.tag?) ↔ t ∈ records.filterMap (·.parent.tag?))
    (top : root = some t' ↔ root = some t) (ns : List Node) :
    (cleaned root records t ns).map f = cleaned root records t' (ns.map f) := by
  have same : (fun n => !Node.carries (records.map (·.tag)) n) ∘ f = fun n => !Node.carries (records.map (·.tag)) n :=
    funext fun n => congrArg (!·) (carried n)
  rw [cleaned, cleaned, List.filter_map, same, tidied, tidied]
  by_cases emptied : t ∈ records.filterMap (·.parent.tag?)
  · rw [if_pos emptied, if_pos (parent.mpr emptied), collapseBlankLines_map blank, decide_eq_decide.mpr top]
  · rw [if_neg emptied, if_neg fun other => emptied (parent.mp other)]

theorem removeDefinitions_document {index : Index} {f : Forest} (sole : f.Sole)
    (tracks : TracksDefinitions index.definitions f.document) :
    (removeDefinitions f index).document = f.document.rebuild (cleaned f.document.tag? index.definitions) := by
  rw [(removeDefinitions_eq sole tracks).1, Node.without, Node.rebuild_rebuild]
  · rfl
  · intro _ ns
    rw [List.filter_map]
    simp only [Function.comp_def, Node.carries_rebuild]

theorem removeDefinitions_sights {index : Index} {f : Forest} (sole : f.Sole)
    (tracks : TracksDefinitions index.definitions f.document) :
    (removeDefinitions f index).document.sights =
      f.document.sights.filter (·.tag ∉ index.definitions.map (·.tag)) := by
  rw [(removeDefinitions_eq sole tracks).1, sights_tidied, tracks.sights_without sole.distinct]

theorem removeDefinitions_collectable {index : Index} {f : Forest} (sole : f.Sole)
    (tracks : TracksDefinitions index.definitions f.document) (collectable : f.document.collectable) :
    (removeDefinitions f index).document.collectable := by
  rw [(removeDefinitions_eq sole tracks).1]
  refine Node.collectable_rebuild (keeps_tidied _ _) (Node.collectable_rebuild ?_ collectable)
  exact fun _ _ _ inside => Or.inl (List.mem_filter.mp inside).1

end MarkdownLinks
