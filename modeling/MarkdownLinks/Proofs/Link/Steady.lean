import MarkdownLinks.Proofs.Link.Again

/-!
Identities after a run. When new definitions say of each identity what its links said, a collection of the transformed
document finds the targets that the first one found, and settling once more changes no link. The document may have
been written and read in between, as long as that has changed nothing but tags and positions.
-/

namespace MarkdownLinks

open Rewriting

/-- When the new definitions say of each text what its links said: no two identities with different targets have one
identifier, and a reference that leads nowhere and stays finds no new definition. -/
structure Steady (index : Index) : Prop where
  apart : ∀ k₁ k₂ t₁ t₂, index.soleTarget? k₁ = some t₁ → index.soleTarget? k₂ = some t₂ →
    identifierOf k₁ = identifierOf k₂ → t₁ = t₂
  quiet : ∀ r ∈ index.links, index.soleTarget? r.identity = none → (index.resolve r.node.form).1 = none →
    ∀ label written, r.node.form = .reference label written → index.newUrl? (identifierOf label) = none

theorem Steady.noCollision {index : Index} (steady : Steady index) : NoCollision index :=
  fun k₁ k₂ t₁ t₂ sole₁ sole₂ same => congrArg Target.dest (steady.apart k₁ k₂ t₁ t₂ sole₁ sole₂ same)

/-- A run over a flat document, and an index of a document like the one it made. -/
structure Reread (tree : Node) (fresh : Nat) (index : Index) (o : Outcome) (root : Tag) (ns : List Node) (doc : Node)
    (next : Nat) (after : Index) : Prop where
  run : Transformed tree fresh index tree o root ns
  document : DocumentTree tree fresh
  all : index.Collected tree.walk
  flat : tree.flat
  document' : DocumentTree doc next
  again : after.Collected doc.walk
  alike : doc.bare = o.forest.document.bare

/-! ### What is known of identities -/

theorem eraseDups_of_const {α : Type} [BEq α] [LawfulBEq α] {a : α} {as : List α} (filled : as ≠ [])
    (same : ∀ b ∈ as, b = a) : as.eraseDups = [a] := by
  cases as with
  | nil => exact absurd rfl filled
  | cons b as =>
    have first := same b List.mem_cons_self
    have others : as.filter (fun c => !c == b) = [] := List.filter_eq_nil_iff.mpr fun c inside => by
      simp [same c (List.mem_cons_of_mem _ inside), first]
    rw [List.eraseDups_cons, others, first, List.eraseDups_nil]

theorem findSome?_of_const {α β : Type} {f : α → Option β} {b : Option β} {as : List α} (filled : as ≠ [])
    (same : ∀ a ∈ as, f a = b) : as.findSome? f = b := by
  cases as with
  | nil => exact absurd rfl filled
  | cons a as =>
    have first := same a List.mem_cons_self
    cases b with
    | none => exact List.findSome?_eq_none_iff.mpr same
    | some b => rw [List.findSome?_cons, first]

variable {tree doc : Node} {fresh next : Nat} {index after : Index} {o : Outcome} {root : Tag} {ns : List Node}

namespace Reread

theorem definitions_perm (h : Reread tree fresh index o root ns doc next after) :
    doc.definitions.Perm index.soleTargets := by
  rw [← Node.definitions_bare, h.alike, Node.definitions_bare]
  exact h.run.definitions_perm h.document h.all

theorem wordings (h : Reread tree fresh index o root ns doc next after) : after.links.map LinkRecord.wording =
    index.links.map fun r => ((settle (Report.detect index) index r).form, r.identity) := by
  rw [h.again.wordings, ← Node.wordings_bare, h.alike, Node.wordings_bare, Node.wordings,
    h.run.texts h.document h.all h.flat, h.run.follows, settledIndex, List.map_map, List.map_map]
  rfl

theorem mem_wordings (h : Reread tree fresh index o root ns doc next after) {form : LinkForm} {k : Text} :
    (∃ r' ∈ after.links, r'.node.form = form ∧ r'.identity = k) ↔
      ∃ r ∈ index.links, (settle (Report.detect index) index r).form = form ∧ r.identity = k := by
  have same := congrArg ((form, k) ∈ ·) h.wordings
  simpa [LinkRecord.wording] using same

theorem keys (h : Reread tree fresh index o root ns doc next after) : after.keys = index.keys := by
  rw [after.keys_eq_wordings, h.wordings, List.map_map]
  rfl

theorem idOf (h : Reread tree fresh index o root ns doc next after) (k : Text) : after.idOf k = index.idOf k := by
  rw [Index.idOf, h.again.ids, h.keys, ← h.all.ids, Index.idOf]

theorem leads (h : Reread tree fresh index o root ns doc next after) (k : Text) :
    after.leads k = (index.links.filter (·.identity = k)).filterMap fun r =>
      after.lead? (settle (Report.detect index) index r).form := by
  rw [after.leads_eq_wordings, h.wordings, List.filter_map, List.filterMap_map]
  rfl

/-- All links of an identity with one destination become references to one definition. -/
theorem targets_settled (h : Reread tree fresh index o root ns doc next after) {k : Text} {u v : Target}
    (sole : index.soleTarget? k = some u) (lead : after.resolve (.reference k .shortcut) = (some v.dest, v.title)) :
    after.destinations k = [v.dest] ∧ after.soleTarget? k = some v := by
  have settled : ∀ r ∈ index.links, r.identity = k →
      after.lead? (settle (Report.detect index) index r).form = some (v.dest, v.title) := by
    rintro r recorded rfl
    rw [settle_form_of_soleTarget? h.all recorded sole, Index.lead?, lead]
    rfl
  have every : ∀ x ∈ after.leads k, x = (v.dest, v.title) := by
    rw [h.leads]
    intro x inside
    obtain ⟨r, among, own⟩ := List.mem_filterMap.mp inside
    obtain ⟨recorded, identity⟩ := List.mem_filter.mp among
    rw [settled r recorded (by simpa using identity)] at own
    exact (Option.some.inj own).symm
  have filled : after.leads k ≠ [] := by
    obtain ⟨r, recorded, own, -⟩ := Index.exists_of_soleTarget? sole
    rw [h.leads]
    exact List.ne_nil_of_mem (List.mem_filterMap.mpr
      ⟨r, List.mem_filter.mpr ⟨recorded, by simpa using own⟩, settled r recorded own⟩)
  have destinations : after.destinations k = [v.dest] := by
    apply eraseDups_of_const (by simpa using filled)
    intro url inside
    obtain ⟨x, among, rfl⟩ := List.mem_map.mp inside
    rw [every x among]
  have title : after.firstTitle k = v.title := findSome?_of_const filled fun x inside => by rw [every x inside]
  refine ⟨destinations, ?_⟩
  rw [Index.soleTarget?, destinations, title]

/-! ### After a steady run -/

theorem resolve_sole (h : Reread tree fresh index o root ns doc next after) (steady : Steady index) {k : Text}
    {u : Target} (sole : index.soleTarget? k = some u) :
    after.resolve (.reference k .shortcut) = (some u.dest, u.title) := by
  obtain ⟨k', v, sole', matched, lead⟩ := h.again.resolve_of_perm h.definitions_perm sole
  obtain rfl := steady.apart k' k v u sole' sole matched
  exact lead k .shortcut rfl

theorem lost (h : Reread tree fresh index o root ns doc next after) (steady : Steady index) {r : LinkRecord}
    (inside : r ∈ index.links) (several : index.soleTarget? r.identity = none)
    (lost : (index.resolve r.node.form).1 = none) : (after.resolve r.node.form).1 = none := by
  cases form : r.node.form with
  | inline target =>
    rw [form] at lost
    exact lost
  | reference label written =>
    rw [steady.noCollision.resolve_reference h.again h.definitions_perm]
    exact steady.quiet r inside several lost label written form

/-- A steady run keeps where identities lead. -/
theorem targets (h : Reread tree fresh index o root ns doc next after) (steady : Steady index) (k : Text) :
    after.destinations k = index.destinations k ∧ after.soleTarget? k = index.soleTarget? k := by
  cases sole : index.soleTarget? k with
  | some u =>
    rw [Index.destinations_of_soleTarget? sole]
    exact h.targets_settled sole (h.resolve_sole steady sole)
  | none =>
    have same : after.leads k = index.leads k := by
      rw [h.leads, Index.leads, Index.leadsOf_eq]
      apply List.filterMap_congr
      intro r among
      obtain ⟨recorded, own⟩ := List.mem_filter.mp among
      obtain rfl : r.identity = k := by simpa using own
      rcases settle_cases h.all recorded sole with ⟨target, url, form, kept, -⟩ | ⟨stays, lost⟩
      · have shown : after.resolve (.inline target) = index.resolve r.node.form := kept
        rw [form, Index.lead?, shown]
        rfl
      · rw [stays, Index.lead?, h.lost steady recorded sole lost, Index.lead?, lost]
        rfl
    have destinations : after.destinations k = index.destinations k := by
      rw [Index.destinations, same, Index.destinations]
    have title : after.firstTitle k = index.firstTitle k := by
      rw [Index.firstTitle, same, Index.firstTitle]
    refine ⟨destinations, ?_⟩
    rw [← sole, Index.soleTarget?, destinations, title, Index.soleTarget?]

theorem soleTargets (h : Reread tree fresh index o root ns doc next after) (steady : Steady index) :
    after.soleTargets = index.soleTargets := by
  have sole : after.soleTarget? = index.soleTarget? := funext fun k => (h.targets steady k).2
  rw [Index.soleTargets, Index.soleTargets, h.keys, sole]

/-- After a steady run all links are settled. -/
theorem settled (h : Reread tree fresh index o root ns doc next after) (steady : Steady index) {r' : LinkRecord}
    (inside' : r' ∈ after.links) : settle (Report.detect after) after r' = r'.node := by
  obtain ⟨r, inside, form, identity⟩ := h.mem_wordings.mp ⟨r', inside', rfl, rfl⟩
  have target := (h.targets steady r'.identity).2
  have resolved := h.again.resolvedUrl inside'
  rw [target, ← identity] at resolved
  cases sole : index.soleTarget? r.identity with
  | some u =>
    rw [settle_form_of_soleTarget? h.all inside sole] at form
    rw [sole, Option.map_some] at resolved
    have calm := Index.isConflicting_of_resolvedUrl resolved
    obtain ⟨id, heading, ⟨tag, form', position⟩, parent, identity'⟩ := r'
    subst identity form
    simp only [settle, calm, resolved]
    rfl
  | none =>
    rw [sole, Option.map_none] at resolved
    rcases settle_cases h.all inside sole with ⟨url, u, inline, -⟩ | ⟨stays, lost⟩
    · rw [inline] at form
      simp [settle, ← form, resolved]
    · rw [stays] at form
      refine settle_eq_self h.again inside' (by rw [target, ← identity, sole]) ?_
      rw [← form]
      exact h.lost steady inside sole lost

end Reread

/-! ### What nodes call for -/

/-- The definition that a link calls for by its text, if the text has one destination. -/
def Index.call? (index : Index) : Node → Option NewDefinition
  | .branch _ (.link _ _) ns =>
    (Node.identityOf? ns).bind fun k => (index.soleTarget? k).map fun target => ⟨index.idOf k, k, target⟩
  | _ => none

theorem Index.call?_bare (index : Index) (n : Node) : index.call? n.bare = index.call? n := by
  cases n with
  | leaf l => rfl
  | definition tag label target => rfl
  | branch tag container ns =>
    rw [Node.bare_branch]
    cases container with
    | link form position => rw [Container.bare, call?, call?, Node.identityOf?_bare]
    | _ => rfl

/-- In a document whose links are those of the settled records, a node calls for the definition of its text. -/
theorem newDefinition?_eq_call? {n : Node} {seen : List Visit} (distinct : n.Distinct) (all : index.Collected seen)
    (places : (index.links.map (·.node.tag.place)).Nodup)
    (texts : n.texts = (settledIndex (Report.detect index) index).links.map LinkRecord.text) {m : Node}
    (member : m ∈ n.subnodes) :
    newDefinition? (settledIndex (Report.detect index) index) (Report.detect index) m = index.call? m := by
  apply Option.ext
  intro d
  rw [newDefinition?_eq_some_iff all places]
  constructor
  · rintro ⟨r, inside, tagged, u, sole, rfl⟩
    have among : (settleRecord (Report.detect index) index r).text ∈ n.texts := by
      rw [texts]
      exact List.mem_map_of_mem (List.mem_map_of_mem inside)
    obtain ⟨m', member', shown⟩ := List.mem_filterMap.mp among
    unfold Node.linkText? at shown
    split at shown
    · rename_i tag form position ms
      obtain ⟨k, identity, same⟩ := Option.map_eq_some_iff.mp shown
      obtain ⟨own, rfl⟩ := Prod.mk.inj same
      have sameTag : tag = (settle (Report.detect index) index r).tag := congrArg Prod.fst own
      obtain rfl := distinct.subnode_inj member member' tagged rfl (by rw [sameTag])
      rw [Index.call?, identity, Option.bind_some]
      change (index.soleTarget? r.identity).map _ = _
      rw [sole, Option.map_some]
      change some (NewDefinition.mk (index.idOf r.identity) _ _) = _
      rw [all.idOf inside]
      rfl
    · cases shown
  · intro called
    unfold Index.call? at called
    split at called
    · rename_i tag form position ms
      obtain ⟨k, identity, called⟩ := Option.bind_eq_some_iff.mp called
      obtain ⟨u, sole, rfl⟩ := Option.map_eq_some_iff.mp called
      have among : ((tag, form), k) ∈ n.texts :=
        List.mem_filterMap.mpr ⟨_, member, by rw [Node.linkText?, identity]; rfl⟩
      rw [texts, List.mem_map] at among
      obtain ⟨r', followed, text⟩ := among
      obtain ⟨r, inside, rfl⟩ := List.mem_map.mp followed
      obtain ⟨own, rfl⟩ := Prod.mk.inj text
      obtain ⟨rfl, -⟩ := Prod.mk.inj own
      have number : index.idOf r.identity = r.id := all.idOf inside
      exact ⟨r, inside, rfl, u, sole, congrArg (NewDefinition.mk · r.identity u) number⟩
    · cases called

end MarkdownLinks
