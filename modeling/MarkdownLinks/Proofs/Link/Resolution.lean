import MarkdownLinks.Proofs.Link.Definitions

/-!
Where links lead before and after a run. Labels are matched by identifier, with case folded, and the first
definition of an identifier wins; so every link keeps its destination exactly if no two identities with different
destinations have one identifier.
-/

namespace MarkdownLinks

open Rewriting

theorem nonEmpty?_eq_some {t u : Text} (filled : nonEmpty? t = some u) : t = u ∧ nonEmpty? u = some u := by
  unfold nonEmpty? at filled
  split at filled
  · exact nomatch filled
  · rename_i other
    obtain rfl := Option.some.inj filled
    exact ⟨rfl, if_neg other⟩

namespace Index

variable {index : Index}

theorem nonEmpty_of_resolve {form : LinkForm} {u : Text} (lead : (index.resolve form).1 = some u) :
    nonEmpty? u = some u := by
  cases form with
  | inline target => exact (nonEmpty?_eq_some lead).2
  | reference label written =>
    rw [resolve] at lead
    cases found : index.definition? (identifierOf label) with
    | none => simp [found] at lead
    | some d =>
      simp only [found, Option.map_some, Option.getD_some] at lead
      exact (nonEmpty?_eq_some lead).2

theorem Collected.definitions_map {tree : Node} (all : index.Collected tree.walk) :
    index.definitions.map (fun d => (d.identifier, d.target)) =
      tree.definitions.map fun d => (identifierOf d.1, d.2) := by
  rw [all.definitions_eq, tree.definitions_eq_sights .none, List.map_filterMap, List.map_filterMap]
  apply List.filterMap_congr
  intro s _
  unfold Sight.definition? Sight.entry?
  cases s.face <;> rfl

theorem Collected.definition?_target {tree : Node} (all : index.Collected tree.walk) (identifier : Text) :
    (index.definition? identifier).map (·.target) =
      (tree.definitions.find? fun d => identifierOf d.1 = identifier).map Prod.snd := by
  have found := congrArg (fun ds => (ds.find? (·.1 = identifier)).map Prod.snd) all.definitions_map
  simp only [List.find?_map, Option.map_map] at found
  rw [all.definition?]
  exact found

theorem Collected.resolve_reference {tree : Node} (all : index.Collected tree.walk) (label : Text)
    (written : ReferenceForm) :
    index.resolve (.reference label written) =
      ((tree.definitions.find? fun d => identifierOf d.1 = identifierOf label).map (·.2.resolved)).getD (none, none) := by
  have found := congrArg (Option.map Target.resolved) (all.definition?_target (identifierOf label))
  rw [Option.map_map, Option.map_map] at found
  exact congrArg (·.getD (none, none)) found

/-- Where a link leads, if it leads anywhere, and its title. -/
def lead? (index : Index) (form : LinkForm) : Option (Text × Option Text) :=
  (index.resolve form).1.map (·, (index.resolve form).2)

theorem leadsOf_eq (rs : List LinkRecord) (k : Text) :
    index.leadsOf rs k = (rs.filter (·.identity = k)).filterMap fun r => index.lead? r.node.form := rfl

theorem lead?_eq_some {form : LinkForm} {url : Text} {title : Option Text} (lead : index.lead? form = some (url, title)) :
    index.resolve form = (some url, title) := by
  obtain ⟨u, found, same⟩ := Option.map_eq_some_iff.mp lead
  obtain ⟨rfl, rfl⟩ := Prod.mk.inj same
  exact Prod.ext found rfl

theorem nonEmpty_bind_twice (t : Option Text) : (t.bind nonEmpty?).bind nonEmpty? = t.bind nonEmpty? := by
  cases t with
  | none => rfl
  | some t =>
    rw [Option.bind_some]
    cases filled : nonEmpty? t with
    | none => rfl
    | some u => exact (nonEmpty?_eq_some filled).2

theorem resolved_resolved {t : Target} {url : Text} (lead : t.resolved.1 = some url) :
    Target.resolved ⟨url, t.resolved.2⟩ = (some url, t.resolved.2) := by
  have filled := (nonEmpty?_eq_some lead).2
  have title := nonEmpty_bind_twice t.title
  simp only [Target.resolved] at title ⊢
  rw [filled, title]

theorem resolve_resolved {form : LinkForm} {url : Text} (lead : (index.resolve form).1 = some url) :
    Target.resolved ⟨url, (index.resolve form).2⟩ = (some url, (index.resolve form).2) := by
  cases form with
  | inline target => exact resolved_resolved lead
  | reference label written =>
    simp only [resolve] at lead ⊢
    cases found : index.definition? (identifierOf label) with
    | none => simp [found] at lead
    | some d =>
      simp only [found, Option.map_some, Option.getD_some] at lead ⊢
      exact resolved_resolved lead

theorem resolved_of_soleTarget? {k : Text} {u : Target} (sole : index.soleTarget? k = some u) :
    u.resolved = (some u.dest, u.title) := by
  obtain ⟨r, -, -, lead⟩ := exists_of_soleTarget? sole
  have title : u.title = index.firstTitle k := by
    unfold soleTarget? at sole
    split at sole
    · rw [← Option.some.inj sole]
    · exact nomatch sole
  have filled : u.title.bind nonEmpty? = u.title := by
    rw [title]
    cases first : index.firstTitle k with
    | none => rfl
    | some text =>
      obtain ⟨lead', inside, same⟩ := List.exists_of_findSome?_eq_some first
      rw [leads, leadsOf_eq] at inside
      obtain ⟨r', -, own⟩ := List.mem_filterMap.mp inside
      have shown := lead?_eq_some own
      have lead : (index.resolve r'.node.form).1 = some lead'.1 := by rw [shown]
      have again := resolve_resolved lead
      rw [shown] at again
      rw [← same]
      exact (Prod.mk.inj again).2
  rw [Target.resolved, nonEmpty_of_resolve lead, filled]

/-- A label that matches an identity with one destination leads to the target of an identity that it matches. -/
theorem Collected.resolve_of_perm {after : Index} {doc : Node} (again : after.Collected doc.walk)
    (perm : doc.definitions.Perm index.soleTargets) {k : Text} {u : Target} (sole : index.soleTarget? k = some u) :
    ∃ k' v, index.soleTarget? k' = some v ∧ identifierOf k' = identifierOf k ∧
      ∀ label written, identifierOf label = identifierOf k →
        after.resolve (.reference label written) = (some v.dest, v.title) := by
  have present : (k, u) ∈ doc.definitions := perm.mem_iff.mpr (mem_soleTargets.mpr sole)
  have found : (doc.definitions.find? fun d => identifierOf d.1 = identifierOf k).isSome :=
    List.find?_isSome.mpr ⟨(k, u), present, by simp⟩
  obtain ⟨⟨k', v⟩, found⟩ := Option.isSome_iff_exists.mp found
  have sole' := mem_soleTargets.mp (perm.mem_iff.mp (List.mem_of_find?_eq_some found))
  refine ⟨k', v, sole', by simpa using List.find?_some found, fun label written matched => ?_⟩
  rw [again.resolve_reference, matched, found]
  exact resolved_of_soleTarget? sole'

end Index

/-! ### What becomes of links -/

variable {tree reflowed : Node} {fresh : Nat} {index after : Index} {o : Outcome} {root : Tag} {ns : List Node}

theorem settle_eq_self {seen : List Visit} (all : index.Collected seen) {r : LinkRecord} (inside : r ∈ index.links)
    (several : index.soleTarget? r.identity = none) (lost : (index.resolve r.node.form).1 = none) :
    settle (Report.detect index) index r = r.node := by
  have resolved : (Report.detect index).resolvedUrl r.id = none := by
    rw [all.resolvedUrl inside, several, Option.map_none]
  unfold settle
  cases form : r.node.form with
  | inline target => simp [resolved]
  | reference label written =>
    rw [form] at lost
    rcases lead : index.resolve (.reference label written) with ⟨_ | url, title⟩
    · simp [resolved]
    · simp [lead] at lost

/-- What becomes of a link whose text has no single destination: it carries where it leads, or it leads nowhere and
stays. -/
theorem settle_cases {seen : List Visit} (all : index.Collected seen) {r : LinkRecord} (inside : r ∈ index.links)
    (several : index.soleTarget? r.identity = none) :
    (∃ target url, (settle (Report.detect index) index r).form = .inline target ∧
      target.resolved = index.resolve r.node.form ∧ (index.resolve r.node.form).1 = some url) ∨
    (settle (Report.detect index) index r = r.node ∧ (index.resolve r.node.form).1 = none) := by
  cases lead : (index.resolve r.node.form).1 with
  | none => exact Or.inr ⟨settle_eq_self all inside several lead, rfl⟩
  | some url =>
    left
    have resolved : (Report.detect index).resolvedUrl r.id = none := by
      rw [all.resolvedUrl inside, several, Option.map_none]
    cases form : r.node.form with
    | inline target =>
      refine ⟨target, url, ?_, rfl, rfl⟩
      simp [settle, form, resolved]
    | reference label written =>
      have conflict : (Report.detect index).isConflicting r.id = true := by
        have member := Index.mem_destinations.mpr ⟨r, inside, rfl, lead⟩
        rw [all.isConflicting inside]
        unfold Index.soleTarget? at several
        rcases dests : index.destinations r.identity with _ | ⟨a, _ | ⟨b, ds⟩⟩
        · simp [dests] at member
        · simp [dests] at several
        · simp
      have again := Index.resolve_resolved lead
      rw [form] at lead again
      refine ⟨⟨url, (index.resolve (.reference label written)).2⟩, url, ?_, ?_, rfl⟩
      · have shown : index.resolve (.reference label written) =
            (some url, (index.resolve (.reference label written)).2) := Prod.ext lead rfl
        unfold settle
        rw [form]
        simp only [conflict, if_true]
        rw [shown]
      · rw [again]
        exact Prod.ext lead.symm rfl

/-- No two identities with one destination each, and different ones, have the same identifier. -/
def NoCollision (index : Index) : Prop := ∀ k₁ k₂ t₁ t₂, index.soleTarget? k₁ = some t₁ →
  index.soleTarget? k₂ = some t₂ → identifierOf k₁ = identifierOf k₂ → t₁.dest = t₂.dest

/-- Every record that led somewhere leads there in the other index, after its node has become that of the record
in the same place of `links`. -/
def SameDestinations (before : Index) (links : List LinkRecord) (after : Index) : Prop :=
  ∀ (i : Nat) (r r' : LinkRecord) (u : Text), before.links[i]? = some r → links[i]? = some r' → (before.resolve r.node.form).1 = some u →
    (after.resolve r'.node.form).1 = some u

namespace Transformed

theorem collect_ok (t : Transformed tree fresh index reflowed o root ns) :
    ∃ after, Index.empty.collect o.forest.document = .ok after := by
  have each : ∀ n ∈ o.forest.document.children, n.collectable := by
    intro n inside
    rcases t.child_cases inside with old | blank | ⟨place, label, target, rfl, -⟩
    · have collectable := t.collectable
      rw [Node.collectable_branch, Bool.and_eq_true] at collectable
      exact List.all_eq_true.mp collectable.2 n old
    · cases n with
      | leaf l => exact Node.collectable_leaf l
      | definition tag label target => exact absurd blank Bool.false_ne_true
      | branch tag container ms => exact absurd blank Bool.false_ne_true
    · rfl
  rw [← isOk_iff, Node.collect_isOk]
  rw [t.document, Node.children] at each
  rw [t.document, Node.collectable_branch, List.all_eq_true.mpr each]
  rfl

/-- Every link keeps its destination exactly if no two identities collide. -/
theorem sameDestinations_iff (t : Transformed tree fresh index reflowed o root ns) (document : DocumentTree tree fresh)
    (all : index.Collected tree.walk) (collect : after.Collected o.forest.document.walk) :
    SameDestinations index o.index.links after ↔ NoCollision index := by
  have record : ∀ (i : Nat) r, index.links[i]? = some r →
      o.index.links[i]? = some (settleRecord (Report.detect index) index r) := by
    intro i r slot
    rw [t.follows, settledIndex, List.getElem?_map, slot, Option.map_some]
  constructor
  · -- A reference to the identity that does not win would lead to the destination of the one that does.
    intro same
    have wins : ∀ k u, index.soleTarget? k = some u → (after.resolve (.reference k .shortcut)).1 = some u.dest := by
      intro k u sole
      obtain ⟨r, inside, rfl, lead⟩ := Index.exists_of_soleTarget? sole
      obtain ⟨i, slot⟩ := List.mem_iff_getElem?.mp inside
      have later := same i r _ u.dest slot (record i r slot) lead
      rwa [settleRecord, settle_form_of_soleTarget? all inside sole] at later
    intro k₁ k₂ t₁ t₂ sole₁ sole₂ matched
    have first := wins k₁ t₁ sole₁
    rw [Index.resolve, matched] at first
    exact Option.some.inj (first.symm.trans (wins k₂ t₂ sole₂))
  · intro apart i r r' u slot slot' lead
    have inside := List.mem_of_getElem? slot
    obtain rfl := Option.some.inj ((record i r slot).symm.trans slot')
    cases sole : index.soleTarget? r.identity with
    | none =>
      rcases settle_cases all inside sole with ⟨target, -, form, kept, -⟩ | ⟨-, lost⟩
      · rw [settleRecord, form]
        exact (congrArg Prod.fst kept).trans lead
      · rw [lost] at lead
        cases lead
    | some target =>
      obtain ⟨k', v, sole', matched, lead'⟩ := collect.resolve_of_perm (t.definitions_perm document all) sole
      rw [settleRecord, settle_form_of_soleTarget? all inside sole, lead' _ _ rfl,
        apart k' r.identity v target sole' sole matched,
        Index.eq_dest_of_soleTarget? inside sole lead]

theorem record_lives (t : Transformed tree fresh index reflowed o root ns) (document : DocumentTree tree fresh)
    (all : index.Collected tree.walk) {r' : LinkRecord} (inside : r' ∈ o.index.links) :
    ∃ ms, .branch r'.node.tag (.link r'.node.form r'.node.position) ms ∈ o.forest.document.subnodes := by
  rw [t.follows] at inside
  obtain ⟨r, recorded, rfl⟩ := List.mem_map.mp inside
  obtain ⟨s, seen, own, face⟩ := t.link_sight document all recorded
  obtain ⟨n, among, seen⟩ := List.mem_flatMap.mp seen
  rcases Node.face_of_mem_sightsFrom seen with ⟨_, _, other, -⟩ | ⟨c, ms, shown, member⟩
  · exact nomatch face.symm.trans other
  · obtain rfl := Face.branch.inj (face.symm.trans shown)
    rw [own] at member
    refine ⟨ms, ?_⟩
    have shows : n.isBlankLine = false := by
      cases n with
      | leaf l => exact nomatch seen
      | definition tag label target => rfl
      | branch tag container ms => rfl
    have child := t.left_child among shows
    rw [t.document] at child ⊢
    rw [settleRecord, settle_position]
    exact Node.mem_subnodes_of_child child member

end Transformed

/-- A run keeps the destinations of all recorded links, those inside other links included, exactly if no two
identities collide: the records have followed their links into the new document, and what they led to before they
lead to by the definitions that a new collection finds there. -/
theorem transform_keeps_destinations_iff (next : Nat) (tag : Tag) (children : List Node) (width : Option Int) :
    let (tree, fresh) := Node.number next (.branch tag .document children)
    match Index.empty.collect tree with
    | .error e => tree.transform fresh width = .error e
    | .ok index => ∃ o after, tree.transform fresh width = .ok o ∧
      Index.empty.collect o.forest.document = .ok after ∧
      o.index.links.map (·.identity) = index.links.map (·.identity) ∧
      (∀ r' ∈ o.index.links, ∃ ms,
        .branch r'.node.tag (.link r'.node.form r'.node.position) ms ∈ o.forest.document.subnodes) ∧
      (SameDestinations index o.index.links after ↔ NoCollision index) := by
  have document := documentTree_number next tag children
  generalize Node.number next (.branch tag .document children) = numbered at document
  obtain ⟨tree, fresh⟩ := numbered
  dsimp only at document ⊢
  cases collect : Index.empty.collect tree with
  | error e => exact transform_error width collect
  | ok index =>
    have all := Index.collected collect
    obtain ⟨f, told, o, root, ns, -, done, t⟩ := transform_ok document width collect
    obtain ⟨after, collect'⟩ := t.collect_ok
    refine ⟨o, after, done, collect', ?_, fun r' inside => t.record_lives document all inside,
      t.sameDestinations_iff document all (Index.collected collect')⟩
    rw [t.follows, settledIndex, List.map_map]
    rfl

end MarkdownLinks
