import MarkdownLinks.Proofs.Link.Collector
import MarkdownLinks.Proofs.Link.Findings

/-!
Reports on any index, however it has come about. A report says of each id where its links lead, in whatever order the
links are looked at, and what it says of an id grows with the index.
-/

namespace MarkdownLinks

/-! ### Where one link leads -/

namespace Index

/-- What a link aims at: its own target or that of the first definition of its label. -/
def target? (index : Index) : LinkForm → Option Target
  | .inline target => some target
  | .reference label _ => (index.definition? (identifierOf label)).map (·.target)

def LeadsTo (index : Index) (r : LinkRecord) (url : Text) : Prop :=
  url ≠ [] ∧ ∃ target, index.target? r.node.form = some target ∧ target.dest = url

/-- A title counts if there is a destination with it. -/
def Titles (index : Index) (r : LinkRecord) (title : Text) : Prop :=
  title ≠ [] ∧ ∃ target, index.target? r.node.form = some target ∧ target.dest ≠ [] ∧ target.title = some title

theorem nonEmpty?_eq_some_iff {t u : Text} : nonEmpty? t = some u ↔ u ≠ [] ∧ t = u := by
  cases t with
  | nil => simp [nonEmpty?, eq_comm]
  | cons c t =>
    simp only [nonEmpty?, List.isEmpty_cons, Bool.false_eq_true, if_false, Option.some.injEq]
    refine ⟨fun same => ⟨same ▸ List.cons_ne_nil c t, same⟩, fun both => both.2⟩

theorem resolve_eq (index : Index) (form : LinkForm) :
    index.resolve form = ((index.target? form).map Target.resolved).getD (none, none) := by
  cases form with
  | inline target => rfl
  | reference label written =>
    rw [resolve, target?, Option.map_map]
    rfl

theorem leadsTo_iff {index : Index} {r : LinkRecord} {url : Text} :
    (index.resolve r.node.form).1 = some url ↔ index.LeadsTo r url := by
  rw [resolve_eq]
  unfold LeadsTo
  cases index.target? r.node.form with
  | none => simp
  | some target => simp [Target.resolved, nonEmpty?_eq_some_iff]

def titleOf (index : Index) (r : LinkRecord) : Option Text :=
  (index.resolve r.node.form).1.bind fun _ => (index.resolve r.node.form).2

theorem titleOf_iff {index : Index} {r : LinkRecord} {title : Text} :
    index.titleOf r = some title ↔ index.Titles r title := by
  unfold titleOf Titles
  rw [resolve_eq]
  cases index.target? r.node.form with
  | none => simp
  | some target =>
    have leads : (∃ url, nonEmpty? target.dest = some url) ↔ target.dest ≠ [] := by
      simp only [nonEmpty?_eq_some_iff]
      exact ⟨fun ⟨url, filled, same⟩ => same ▸ filled, fun filled => ⟨_, filled, rfl⟩⟩
    have titled : target.title.bind nonEmpty? = some title ↔ title ≠ [] ∧ target.title = some title := by
      simp only [Option.bind_eq_some_iff, nonEmpty?_eq_some_iff]
      refine ⟨fun ⟨t, own, filled, same⟩ => ⟨filled, same ▸ own⟩, fun both => ⟨title, both.2, both.1, rfl⟩⟩
    simp only [Option.map_some, Option.getD_some, Target.resolved, Option.bind_eq_some_iff, titled, Option.some.injEq,
      exists_eq_left', ← leads]
    grind

theorem mem_findingsAt_urls {index : Index} {rs : List LinkRecord} {id : Nat} {url : Text} :
    url ∈ (index.findingsAt rs id).urls ↔ ∃ r ∈ rs, r.id = id ∧ index.LeadsTo r url := by
  simp only [findingsAt, leadFor, List.mem_eraseDups, List.mem_map, List.mem_filterMap, ← leadsTo_iff]
  constructor
  · rintro ⟨_, ⟨r, inside, lead⟩, rfl⟩
    split at lead
    · rename_i own
      obtain ⟨url, leads, rfl⟩ := Option.map_eq_some_iff.mp lead
      exact ⟨r, inside, own, leads⟩
    · cases lead
  · rintro ⟨r, inside, own, leads⟩
    exact ⟨_, ⟨r, inside, by rw [if_pos own, leads, Option.map_some]⟩, rfl⟩

theorem findSome?_filterMap {α β γ : Type} (f : α → Option β) (g : β → Option γ) (as : List α) :
    (as.filterMap f).findSome? g = as.findSome? fun a => (f a).bind g := by
  induction as with
  | nil => rfl
  | cons a as ih =>
    rw [List.findSome?_cons]
    cases found : f a with
    | none => rw [List.filterMap_cons_none found, ih, Option.bind_none]
    | some b => rw [List.filterMap_cons_some found, List.findSome?_cons, ih, Option.bind_some]

theorem findingsAt_title_iff {index : Index} {rs : List LinkRecord} {id : Nat} {title : Text} :
    (index.findingsAt rs id).title = some title ↔ ∃ before r after, rs = before ++ r :: after ∧ r.id = id ∧
      index.Titles r title ∧ ∀ r' ∈ before, r'.id = id → ∀ title', ¬ index.Titles r' title' := by
  have titled (r : LinkRecord) (t : Text) : (index.leadFor id r).bind Prod.snd = some t ↔ r.id = id ∧ index.Titles r t := by
    rw [leadFor, ← titleOf_iff, titleOf]
    split
    · rename_i own
      cases (index.resolve r.node.form).1 <;> simp [own]
    · rename_i other
      simp [other]
  have untitled (r : LinkRecord) :
      (index.leadFor id r).bind Prod.snd = none ↔ r.id = id → ∀ t, ¬ index.Titles r t := by
    rw [Option.eq_none_iff_forall_ne_some]
    simp only [ne_eq, titled, not_and]
    exact ⟨fun apart own t => apart t own, fun apart t own => apart own t⟩
  rw [findingsAt, findSome?_filterMap, List.findSome?_eq_some_iff]
  simp only [titled, untitled, and_assoc]

end Index

namespace Report

variable {index : Index}

/-! ### What a report says of an id -/

/-- What a report tells about the links of an index. -/
structure Describes (report : Report) (index : Index) : Prop where
  recorded : report.findings.map (·.id) = (index.links.map (·.id)).eraseDups
  nodup : ∀ id, (report.urls id).Nodup
  urls : ∀ id url, url ∈ report.urls id ↔ ∃ r ∈ index.links, r.id = id ∧ index.LeadsTo r url
  conflict : ∀ id, report.isConflicting id ↔ ∃ r ∈ index.links, ∃ r' ∈ index.links, r.id = id ∧ r'.id = id ∧
    ∃ url url', index.LeadsTo r url ∧ index.LeadsTo r' url' ∧ url ≠ url'
  conflicting : report.conflicting.Nodup ∧ ∀ id, id ∈ report.conflicting ↔ report.isConflicting id
  resolved : ∀ id url, report.resolvedUrl id = some url ↔ (∃ r ∈ index.links, r.id = id ∧ index.LeadsTo r url) ∧
    ∀ r ∈ index.links, r.id = id → ∀ url', index.LeadsTo r url' → url' = url
  title : ∀ id title, report.title id = some title ↔ ∃ before r after, index.links = before ++ r :: after ∧ r.id = id ∧
    index.Titles r title ∧ ∀ r' ∈ before, r'.id = id → ∀ title', ¬ index.Titles r' title'

theorem one_lt_length_iff {α : Type} {l : List α} (nodup : l.Nodup) : 1 < l.length ↔ ∃ a ∈ l, ∃ b ∈ l, a ≠ b := by
  constructor
  · intro long
    match l, long with
    | a :: b :: l, _ =>
      refine ⟨a, by simp, b, by simp, fun same => ?_⟩
      exact (List.nodup_cons.mp nodup).1 (same ▸ List.mem_cons_self)
  · rintro ⟨a, inside, b, inside', other⟩
    match l, inside, inside' with
    | [c], inside, inside' =>
      exact absurd ((List.mem_singleton.mp inside).trans (List.mem_singleton.mp inside').symm) other
    | c :: d :: l, _, _ => simp

theorem resolvedUrl_eq_some_iff {report : Report} {id : Nat} {url : Text} (nodup : (report.urls id).Nodup) :
    report.resolvedUrl id = some url ↔ url ∈ report.urls id ∧ ∀ url' ∈ report.urls id, url' = url := by
  unfold resolvedUrl
  generalize report.urls id = urls at nodup
  match urls, nodup with
  | [], _ => simp
  | [a], _ => simp [eq_comm]
  | a :: b :: urls, nodup =>
    simp only [reduceCtorEq, false_iff, not_and]
    intro _ all
    have same : a = b := (all a (by simp)).trans (all b (by simp)).symm
    exact (List.nodup_cons.mp nodup).1 (same ▸ List.mem_cons_self)

theorem mem_conflicting {id : Nat} : id ∈ (detect index).conflicting ↔ (detect index).isConflicting id := by
  rw [isConflicting, decide_eq_true_eq, detect_urls, conflicting, detect_findings, List.mem_map]
  constructor
  · rintro ⟨f, inside, rfl⟩
    obtain ⟨known, long⟩ := List.mem_filter.mp inside
    obtain ⟨i, -, rfl⟩ := List.mem_map.mp known
    exact of_decide_eq_true long
  · intro long
    have known : id ∈ (index.links.map (·.id)).eraseDups := by
      by_contra unused
      rw [List.mem_eraseDups] at unused
      rw [Index.findingsAt_unused fun r inside own => unused (List.mem_map.mpr ⟨r, inside, own⟩)] at long
      exact absurd long (Nat.not_lt_zero 1)
    exact ⟨_, List.mem_filter.mpr ⟨List.mem_map_of_mem known, decide_eq_true long⟩, rfl⟩

theorem detect_describes (index : Index) : (detect index).Describes index := by
  have recorded : (detect index).findings.map (·.id) = (index.links.map (·.id)).eraseDups := by
    rw [detect_findings, List.map_map]
    exact List.map_id _
  have nodup (id : Nat) : ((detect index).urls id).Nodup := detect_urls index id ▸ eraseDups_nodup _
  have urls (id : Nat) (url : Text) :
      url ∈ (detect index).urls id ↔ ∃ r ∈ index.links, r.id = id ∧ index.LeadsTo r url := by
    rw [detect_urls, Index.mem_findingsAt_urls]
  have ids : ((detect index).findings.map (·.id)).Nodup := recorded ▸ eraseDups_nodup _
  refine ⟨recorded, nodup, urls, fun id => ?_, ⟨ids.sublist (List.filter_sublist.map _), fun id => mem_conflicting⟩,
    fun id url => ?_, fun id title => ?_⟩
  · rw [isConflicting, decide_eq_true_eq, one_lt_length_iff (nodup id)]
    simp only [urls]
    constructor
    · rintro ⟨url, ⟨r, inside, own, leads⟩, url', ⟨r', inside', own', leads'⟩, other⟩
      exact ⟨r, inside, r', inside', own, own', url, url', leads, leads', other⟩
    · rintro ⟨r, inside, r', inside', own, own', url, url', leads, leads', other⟩
      exact ⟨url, ⟨r, inside, own, leads⟩, url', ⟨r', inside', own', leads'⟩, other⟩
  · rw [resolvedUrl_eq_some_iff (nodup id)]
    simp only [urls]
    refine and_congr_right fun _ => ⟨fun all r inside own url' leads => all url' ⟨r, inside, own, leads⟩, ?_⟩
    rintro all url' ⟨r, inside, own, leads⟩
    exact all r inside own url' leads
  · rw [detect_title, Index.findingsAt_title_iff]

end Report

/-! ### Further trees -/

namespace Index

/-- What an index says of links and definitions, a later one says too. -/
structure Extends (index later : Index) : Prop where
  links : index.links <+: later.links
  definitions : ∀ k d, index.definition? k = some d → later.definition? k = some d

variable {index later : Index}

theorem Extends.refl (index : Index) : index.Extends index := ⟨List.prefix_rfl, fun _ _ found => found⟩

theorem Extends.trans {last : Index} (first : index.Extends later) (second : later.Extends last) : index.Extends last :=
  ⟨first.links.trans second.links, fun k d found => second.definitions k d (first.definitions k d found)⟩

theorem extends_addDefinition (index : Index) (tag : Tag) (label : Text) (target : Target) (parent : Parent) :
    index.Extends (index.addDefinition tag label target parent) := by
  refine ⟨List.prefix_rfl, fun k d found => ?_⟩
  obtain ⟨i, place, slot⟩ := Option.bind_eq_some_iff.mp found
  refine Option.bind_eq_some_iff.mpr ⟨i, ?_, List.getElem?_append_left (List.getElem?_eq_some_iff.mp slot).1 ▸ slot⟩
  simp only [addDefinition]
  split
  · exact place
  · rw [List.lookup_append, place, Option.some_or]

theorem extends_addLink (index : Index) (node : LinkNode) (identity : Text) (parent : Parent) :
    index.Extends (index.addLink node identity parent) := by
  unfold addLink
  split
  · exact .refl index
  · exact ⟨List.prefix_append _ _, fun _ _ found => found⟩

theorem extends_add {v : Visit} (added : index.add v = .ok later) : index.Extends later := by
  cases step_of_add added with
  | nothing => exact .refl index
  | heading => exact ⟨List.prefix_rfl, fun _ _ found => found⟩
  | definition => exact index.extends_addDefinition _ _ _ _
  | link => exact index.extends_addLink _ _ _

theorem extends_absorb (index : Index) (visits : List Visit) : index.Extends (index.absorb visits) := by
  induction visits generalizing index with
  | nil => exact .refl index
  | cons v visits ih =>
    rw [absorb]
    split
    · rename_i next added
      exact (extends_add added).trans (ih next)
    · exact .refl index

theorem extends_absorbAll (index : Index) (trees : List Node) :
    index.Extends (trees.foldl (fun index tree => index.absorb tree.walk) index) := by
  induction trees generalizing index with
  | nil => exact .refl index
  | cons tree trees ih => exact (index.extends_absorb tree.walk).trans (ih _)

theorem Extends.leadsTo (more : index.Extends later) {r : LinkRecord} {url : Text} (leads : index.LeadsTo r url) :
    later.LeadsTo r url := by
  obtain ⟨filled, target, aims, dest⟩ := leads
  refine ⟨filled, target, ?_, dest⟩
  cases form : r.node.form with
  | inline own => rwa [form] at aims
  | reference label written =>
    rw [form] at aims
    obtain ⟨d, found, own⟩ := Option.map_eq_some_iff.mp aims
    exact Option.map_eq_some_iff.mpr ⟨d, more.definitions _ _ found, own⟩

end Index

namespace Report

/-- Two reports that differ at most in the order of what they list. -/
structure Agrees (report report' : Report) : Prop where
  recorded : (report.findings.map (·.id)).Perm (report'.findings.map (·.id))
  urls : ∀ id, (report.urls id).Perm (report'.urls id)
  conflict : ∀ id, report.isConflicting id = report'.isConflicting id
  conflicting : report.conflicting.Perm report'.conflicting
  found : report.conflictsFound = report'.conflictsFound
  resolved : ∀ id, report.resolvedUrl id = report'.resolvedUrl id

variable {report report' : Report} {index : Index}

theorem Describes.agrees {links : List LinkRecord} (told : report.Describes { index with links })
    (told' : report'.Describes index) (same : links.Perm index.links) : report.Agrees report' := by
  have urls (id : Nat) : (report.urls id).Perm (report'.urls id) := by
    refine (List.perm_ext_iff_of_nodup (told.nodup id) (told'.nodup id)).mpr fun url => ?_
    rw [told.urls, told'.urls]
    exact exists_congr fun r => and_congr_left' same.mem_iff
  have conflict (id : Nat) : report.isConflicting id = report'.isConflicting id := by
    rw [isConflicting, isConflicting, (urls id).length_eq]
  have conflicting : report.conflicting.Perm report'.conflicting := by
    refine (List.perm_ext_iff_of_nodup told.conflicting.1 told'.conflicting.1).mpr fun id => ?_
    rw [told.conflicting.2, told'.conflicting.2, conflict]
  refine ⟨?_, urls, conflict, conflicting, conflicting.length_eq, fun id => ?_⟩
  · rw [told.recorded, told'.recorded]
    refine (List.perm_ext_iff_of_nodup (eraseDups_nodup _) (eraseDups_nodup _)).mpr fun id => ?_
    rw [List.mem_eraseDups, List.mem_eraseDups]
    exact (same.map _).mem_iff
  · refine Option.ext fun url => ?_
    rw [resolvedUrl_eq_some_iff (told.nodup id), resolvedUrl_eq_some_iff (told'.nodup id)]
    simp only [(urls id).mem_iff]

theorem Describes.grows {later : Index} (told : report.Describes index) (told' : report'.Describes later)
    (more : index.Extends later) (id : Nat) :
    report.urls id ⊆ report'.urls id ∧ (report.isConflicting id → report'.isConflicting id) := by
  have urls : report.urls id ⊆ report'.urls id := by
    intro url inside
    obtain ⟨r, among, own, leads⟩ := (told.urls id url).mp inside
    exact (told'.urls id url).mpr ⟨r, more.links.subset among, own, more.leadsTo leads⟩
  refine ⟨urls, ?_⟩
  rw [isConflicting, isConflicting, decide_eq_true_eq, decide_eq_true_eq, one_lt_length_iff (told.nodup id),
    one_lt_length_iff (told'.nodup id)]
  rintro ⟨a, inside, b, inside', other⟩
  exact ⟨a, urls inside, b, urls inside', other⟩

/-- A report describes its index. The order of the links does not matter to it but for titles, and whatever further trees
the index collects, with success or not, no destination of an id is lost. -/
theorem detect_complete (index : Index) :
    (detect index).Describes index ∧
      (∀ links : List LinkRecord, links.Perm index.links → (detect { index with links }).Agrees (detect index)) ∧
      ∀ trees : List Node,
        let later := trees.foldl (fun index tree => index.absorb tree.walk) index
        (∀ id, (detect index).urls id ⊆ (detect later).urls id ∧
          ((detect index).isConflicting id → (detect later).isConflicting id)) ∧
        match trees.foldlM Index.collect index with
        | .ok collected => collected = later
        | .error _ => ∃ tree ∈ trees, tree.collectable = false := by
  refine ⟨detect_describes index, fun links same => ?_, fun trees => ⟨fun id => ?_, ?_⟩⟩
  · exact (detect_describes { index with links }).agrees (detect_describes index) same
  · exact (detect_describes index).grows (detect_describes _) (index.extends_absorbAll trees) id
  · have outcome := Index.foldlM_collect trees index
    split
    · rename_i collected run
      rw [run] at outcome
      exact outcome.1
    · rename_i run
      rwa [run] at outcome

end Report
end MarkdownLinks
