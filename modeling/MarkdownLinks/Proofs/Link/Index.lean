import Mathlib.Data.List.Induction
import MarkdownLinks.Proofs.Node.Sights

/-!
What an index says about the visits it was collected from: one record for each link with a text, one for each
definition, one id for each identity in order of first occurrence, and for each identifier the first definition
that has it. `add` keeps this for one visit more, so it holds of every collection.
-/

namespace MarkdownLinks

theorem eraseDups_nodup {α : Type} [BEq α] [LawfulBEq α] : ∀ as : List α, as.eraseDups.Nodup
  | [] => List.nodup_nil
  | a :: as => by
    rw [List.eraseDups_cons, List.nodup_cons]
    exact ⟨by simp [List.mem_eraseDups], eraseDups_nodup _⟩
termination_by as => as.length
decreasing_by exact Nat.lt_succ_of_le (List.length_filter_le _ _)

theorem eraseDups_concat {α : Type} [BEq α] [LawfulBEq α] (as : List α) (a : α) :
    (as ++ [a]).eraseDups = if a ∈ as then as.eraseDups else as.eraseDups ++ [a] := by
  rw [List.eraseDups_append]
  split
  · rename_i member
    simp [List.removeAll, member]
  · rename_i other
    simp [List.removeAll, other, List.eraseDups_cons]

theorem eraseDups_map {α β : Type} [BEq α] [LawfulBEq α] [BEq β] [LawfulBEq β] {f : α → β} {l : List α}
    (inj : ∀ a ∈ l, ∀ b ∈ l, f a = f b → a = b) : (l.map f).eraseDups = l.eraseDups.map f := by
  induction l using List.reverseRecOn with
  | nil => rfl
  | append_singleton l a ih =>
    have before := ih fun b inside c inside' => inj b (List.mem_append_left _ inside) c (List.mem_append_left _ inside')
    have known : f a ∈ l.map f ↔ a ∈ l := by
      refine ⟨fun image => ?_, List.mem_map_of_mem⟩
      obtain ⟨b, inside, same⟩ := List.mem_map.mp image
      rwa [← inj b (List.mem_append_left _ inside) a (by simp) same]
    rw [List.map_append, List.map_singleton, eraseDups_concat, eraseDups_concat, before]
    by_cases old : a ∈ l
    · rw [if_pos (known.mpr old), if_pos old]
    · rw [if_neg (mt known.mp old), if_neg old, List.map_append, List.map_singleton]

theorem lookup_isSome_iff {α β : Type} [BEq α] [LawfulBEq α] {k : α} {l : List (α × β)} :
    (l.lookup k).isSome ↔ k ∈ l.map Prod.fst := by
  induction l with
  | nil => simp
  | cons p l ih =>
    obtain ⟨key, value⟩ := p
    rw [List.lookup_cons]
    by_cases same : k = key
    · simp [same]
    · simp [same, ih, show (k == key) = false by simpa using same]

theorem mem_of_lookup_eq_some {α β : Type} [BEq α] [LawfulBEq α] {k : α} {v : β} {l : List (α × β)}
    (found : l.lookup k = some v) : (k, v) ∈ l := by
  induction l with
  | nil => exact nomatch found
  | cons p l ih =>
    obtain ⟨key, value⟩ := p
    rw [List.lookup_cons] at found
    by_cases same : k = key
    · simp only [same, beq_self_eq_true] at found
      rw [same, Option.some.inj found]
      exact List.mem_cons_self
    · simp only [show (k == key) = false by simpa using same] at found
      exact List.mem_cons_of_mem _ (ih found)

def LinkRecord.sight (r : LinkRecord) : Sight := ⟨r.node.tag, .branch (.link r.node.form r.node.position), r.parent⟩

/-- The link that a visit shows, with its identity, unless that is empty. -/
def Visit.link? (v : Visit) : Option (Sight × Text) :=
  match v.node with
  | .branch tag (.link form position) _ =>
    match v.node.identity with
    | .ok identity =>
      if identity.isEmpty then none else some (⟨tag, .branch (.link form position), v.parentOf⟩, identity)
    | .error _ => none
  | _ => none

def Visit.definition? (v : Visit) : Option DefinitionRecord :=
  match v.node with
  | .definition tag label target => some ⟨identifierOf label, tag, target, v.parentOf⟩
  | _ => none

namespace Index

/-- The identities of an index in order of first occurrence. -/
def keys (index : Index) : List Text := (index.links.map (·.identity)).eraseDups

/-- What collecting from the visits of `seen` leaves in an index. -/
structure Collected (index : Index) (seen : List Visit) : Prop where
  links : index.links.map (fun r => (r.sight, r.identity)) = seen.filterMap Visit.link?
  ids : index.ids = index.keys.zipIdx 1
  named : ∀ r ∈ index.links, (r.identity, r.id) ∈ index.ids
  groups : index.groups.map Prod.fst = index.keys
  definitions : index.definitions = seen.filterMap Visit.definition?
  firsts : ∀ k, index.byIdentifier.lookup k = index.definitions.findIdx? (·.identifier = k)

theorem collected_empty : empty.Collected [] :=
  ⟨rfl, rfl, fun _ => List.not_mem_nil.elim, rfl, rfl, fun _ => rfl⟩

/-- The three things a visit can do to an index. -/
theorem add_cases {index index' : Index} {v : Visit} (added : index.add v = .ok index') :
    (v.link? = none ∧ v.definition? = none ∧ ∃ headings, index' = { index with headings }) ∨
    (∃ tag label target, v.node = .definition tag label target ∧
      index' = index.addDefinition tag label target v.parentOf) ∨
    ∃ tag form position ns identity, v.node = .branch tag (.link form position) ns ∧
      v.node.identity = .ok identity ∧ index' = index.addLink ⟨tag, form, position⟩ identity v.parentOf := by
  obtain ⟨node, parent⟩ := v
  cases node with
  | leaf l => exact Or.inl ⟨rfl, rfl, index.headings, (Except.ok.inj added).symm⟩
  | definition tag label target => exact Or.inr (Or.inl ⟨tag, label, target, rfl, (Except.ok.inj added).symm⟩)
  | branch tag container ns =>
    cases container with
    | link form position =>
      right; right
      simp only [add] at added
      cases text : (Node.branch tag (.link form position) ns).identity with
      | error e => simp [text, bind, Except.bind] at added
      | ok identity =>
        simp only [text, bind, Except.bind] at added
        exact ⟨tag, form, position, ns, identity, rfl, rfl, (Except.ok.inj added).symm⟩
    | heading underlined level => exact Or.inl ⟨rfl, rfl, _, (Except.ok.inj added).symm⟩
    | _ => exact Or.inl ⟨rfl, rfl, index.headings, (Except.ok.inj added).symm⟩

theorem addToGroup_keys (identity : Text) (i : Nat) (groups : List (Text × List Nat)) :
    (addToGroup identity i groups).map Prod.fst =
      if identity ∈ groups.map Prod.fst then groups.map Prod.fst else groups.map Prod.fst ++ [identity] := by
  induction groups with
  | nil => rfl
  | cons g groups ih =>
    obtain ⟨key, is⟩ := g
    by_cases same : key = identity
    · simp [addToGroup, same]
    · rw [addToGroup, if_neg same, List.map_cons, ih]
      by_cases member : identity ∈ groups.map Prod.fst
      · simp only [List.map_cons, if_pos member, if_pos (List.mem_cons_of_mem key member)]
      · have other : identity ∉ key :: groups.map Prod.fst := by
          simpa [Ne.symm same] using member
        simp only [List.map_cons, if_neg member, if_neg other, List.cons_append]

variable {index index' : Index} {seen : List Visit} {v : Visit}

theorem Collected.addDefinition (before : index.Collected seen) {tag : Tag} {label : Text} {target : Target}
    (node : v.node = .definition tag label target) :
    (index.addDefinition tag label target v.parentOf).Collected (seen ++ [v]) := by
  have noLink : v.link? = none := by simp [Visit.link?, node]
  have shown : v.definition? = some ⟨identifierOf label, tag, target, v.parentOf⟩ := by
    simp [Visit.definition?, node]
  refine ⟨?_, before.ids, before.named, before.groups, ?_, fun k => ?_⟩
  · rw [List.filterMap_append, List.filterMap_cons, noLink]
    simpa [Index.addDefinition] using before.links
  · rw [List.filterMap_append, ← before.definitions]
    simp [Index.addDefinition, shown]
  · have known : index.byIdentifier.any (·.1 = identifierOf label) =
        (index.byIdentifier.lookup (identifierOf label)).isSome := by
      rw [Bool.eq_iff_iff, lookup_isSome_iff]
      simp
    simp only [Index.addDefinition, known, before.firsts, List.findIdx?_append, List.findIdx?_cons,
      List.findIdx?_nil]
    by_cases asked : k = identifierOf label
    · subst asked
      cases found : index.definitions.findIdx? (·.identifier = identifierOf label) with
      | some i => simp [before.firsts, found]
      | none =>
        have absent : index.byIdentifier.lookup (identifierOf label) = none := (before.firsts _).trans found
        simp [List.lookup_append, absent]
    · have other : ¬ identifierOf label = k := Ne.symm asked
      have apart : (k == identifierOf label) = false := by simpa using asked
      cases found : (index.definitions.findIdx? (·.identifier = identifierOf label)).isSome with
      | true => simp [before.firsts, other]
      | false => simp [before.firsts, other, List.lookup_append, List.lookup_cons, apart]

theorem Collected.known (before : index.Collected seen) (k : Text) :
    (index.ids.lookup k).isSome = decide (k ∈ index.keys) := by
  rw [Bool.eq_iff_iff, lookup_isSome_iff, before.ids, List.zipIdx_map_fst, decide_eq_true_iff]

theorem Collected.addLink (before : index.Collected seen) {tag : Tag} {form : LinkForm} {position : Option Position}
    {ns : List Node} {identity : Text} (node : v.node = .branch tag (.link form position) ns)
    (text : v.node.identity = .ok identity) :
    (index.addLink ⟨tag, form, position⟩ identity v.parentOf).Collected (seen ++ [v]) := by
  have noDefinition : v.definition? = none := by simp [Visit.definition?, node]
  rw [node] at text
  by_cases blank : identity.isEmpty
  · have noLink : v.link? = none := by simp [Visit.link?, node, text, blank]
    rw [Index.addLink, if_pos blank]
    refine ⟨?_, before.ids, before.named, before.groups, ?_, before.firsts⟩
    · rw [List.filterMap_append, List.filterMap_cons, noLink]
      simpa using before.links
    · rw [List.filterMap_append, List.filterMap_cons, noDefinition]
      simpa using before.definitions
  · have shown : v.link? = some (⟨tag, .branch (.link form position), v.parentOf⟩, identity) := by
      simp [Visit.link?, node, text, blank]
    have count : index.ids.length = index.keys.length := by rw [before.ids, List.length_zipIdx]
    have keys' : (index.addLink ⟨tag, form, position⟩ identity v.parentOf).keys =
        if identity ∈ index.keys then index.keys else index.keys ++ [identity] := by
      simp only [Index.addLink, if_neg blank, keys, List.map_append, List.map_cons, List.map_nil, eraseDups_concat,
        List.mem_eraseDups]
    have known := before.known identity
    refine ⟨?_, ?_, ?_, ?_, ?_, ?_⟩
    · rw [List.filterMap_append, ← before.links]
      simp [Index.addLink, blank, shown, LinkRecord.sight]
    · rw [keys', Index.addLink, if_neg blank]
      simp only [known, count]
      by_cases old : identity ∈ index.keys
      · simp only [old, decide_true, if_true]
        exact before.ids
      · simp only [old, decide_false, Bool.false_eq_true, if_false]
        rw [before.ids, List.zipIdx_append, List.zipIdx_singleton, Nat.add_comm]
    · intro r inside
      simp only [Index.addLink, if_neg blank] at inside ⊢
      have keep : ∀ p ∈ index.ids,
          p ∈ if (index.ids.lookup identity).isSome then index.ids else index.ids ++ [(identity, index.ids.length + 1)] := by
        intro p old
        split
        · exact old
        · exact List.mem_append_left _ old
      rcases List.mem_append.mp inside with old | new
      · exact keep _ (before.named r old)
      · obtain rfl := List.mem_singleton.mp new
        cases found : index.ids.lookup identity with
        | some id => simpa [found] using keep _ (mem_of_lookup_eq_some found)
        | none => simp
    · rw [keys', Index.addLink, if_neg blank]
      rw [addToGroup_keys, before.groups]
    · rw [List.filterMap_append, List.filterMap_cons, noDefinition]
      simpa [Index.addLink, blank] using before.definitions
    · simpa [Index.addLink, blank] using before.firsts

theorem Collected.add (before : index.Collected seen) (added : index.add v = .ok index') :
    index'.Collected (seen ++ [v]) := by
  rcases add_cases added with ⟨noLink, noDefinition, headings, rfl⟩ | ⟨tag, label, target, node, rfl⟩ |
    ⟨tag, form, position, ns, identity, node, text, rfl⟩
  · refine ⟨?_, before.ids, before.named, before.groups, ?_, before.firsts⟩
    · rw [List.filterMap_append, List.filterMap_cons, noLink]
      simpa using before.links
    · rw [List.filterMap_append, List.filterMap_cons, noDefinition]
      simpa using before.definitions
  · exact before.addDefinition node
  · exact before.addLink node text

/-- What one visit keeps, a run over many does. -/
theorem run_induction {P : Index → List Visit → Prop}
    (step : ∀ {index index' : Index} {seen : List Visit} {v : Visit}, P index seen → index.add v = .ok index' →
      P index' (seen ++ [v]))
    {visits : List Visit} (before : P index seen) (run : visits.foldlM Index.add index = .ok index') :
    P index' (seen ++ visits) := by
  induction visits generalizing index seen with
  | nil =>
    rw [List.append_nil]
    exact Except.ok.inj run ▸ before
  | cons v visits ih =>
    rw [List.foldlM_cons] at run
    cases added : index.add v with
    | error e => simp [added, bind, Except.bind] at run
    | ok next =>
      simp only [added, bind, Except.bind] at run
      simpa using ih (step before added) run

theorem Collected.run {visits : List Visit} (before : index.Collected seen)
    (run : visits.foldlM Index.add index = .ok index') : index'.Collected (seen ++ visits) :=
  run_induction Collected.add before run

/-- Every collection from one tree, started afresh, describes the walk of that tree. -/
theorem collected {tree : Node} (collect : empty.collect tree = .ok index) : index.Collected tree.walk :=
  collected_empty.run collect

/-! ### What collections say of identities and definitions -/

theorem Collected.id_eq_iff (all : index.Collected seen) {r r' : LinkRecord} (inside : r ∈ index.links)
    (inside' : r' ∈ index.links) : r.id = r'.id ↔ r.identity = r'.identity := by
  have slot := all.named r inside
  have slot' := all.named r' inside'
  rw [all.ids, List.mk_mem_zipIdx_iff_le_and_getElem?_sub] at slot slot'
  constructor
  · intro same
    have twin := slot.2
    rw [same, slot'.2] at twin
    exact (Option.some.inj twin).symm
  · intro same
    have twin := slot.2
    rw [same, ← slot'.2] at twin
    have bound : r.id - 1 < index.keys.length := by
      rw [List.getElem?_eq_some_iff] at slot
      exact slot.2.1
    have equal := (List.getElem?_inj bound (eraseDups_nodup _)).mp twin
    omega

theorem Collected.definition? (all : index.Collected seen) (k : Text) :
    index.definition? k = index.definitions.find? (·.identifier = k) := by
  rw [List.find?_eq_bind_findIdx?_getElem?, ← all.firsts]
  rfl

end Index

def Sight.definition? (s : Sight) : Option DefinitionRecord :=
  match s.face with
  | .definition label target => some ⟨identifierOf label, s.tag, target, s.parent⟩
  | .branch _ => none

theorem Node.walk_definitions (n : Node) : n.walk.filterMap Visit.definition? = n.sights.filterMap Sight.definition? := by
  rw [← walk_sights, List.filterMap_filterMap]
  apply List.filterMap_congr
  intro v _
  unfold Visit.definition? Visit.sight?
  cases v.node <;> rfl

namespace Index

variable {index : Index} {tree : Node}

theorem Collected.definitions_eq (all : index.Collected tree.walk) :
    index.definitions = tree.sights.filterMap Sight.definition? := by
  rw [all.definitions, Node.walk_definitions]

theorem filterMap_sublist {α β : Type} {f g : α → Option β} (imp : ∀ a b, f a = some b → g a = some b)
    (as : List α) : (as.filterMap f).Sublist (as.filterMap g) := by
  induction as with
  | nil => exact List.Sublist.slnil
  | cons a as ih =>
    cases found : f a with
    | none =>
      rw [List.filterMap_cons_none found]
      exact ih.trans (List.Sublist.filterMap g (List.sublist_cons_self a as))
    | some b =>
      rw [List.filterMap_cons_some found, List.filterMap_cons_some (imp a b found)]
      exact ih.cons_cons b

/-- The recorded links are among the sights of the tree, in order. -/
theorem Collected.sights (all : index.Collected tree.walk) :
    (index.links.map (·.sight)).Sublist tree.sights := by
  have same : index.links.map (·.sight) = tree.walk.filterMap fun v => v.link?.map Prod.fst := by
    have firsts := congrArg (List.map Prod.fst) all.links
    rw [List.map_map, List.map_filterMap] at firsts
    exact firsts
  rw [same, ← Node.walk_sights]
  refine filterMap_sublist (fun v s shown => ?_) _
  obtain ⟨⟨s', identity⟩, link, rfl⟩ := Option.map_eq_some_iff.mp shown
  unfold Visit.link? at link
  unfold Visit.sight?
  split at link
  · rename_i node
    split at link
    · split at link
      · exact nomatch link
      · simp only [Option.some.injEq, Prod.mk.injEq] at link
        rw [node, ← link.1]
    · exact nomatch link
  · exact nomatch link

end Index
end MarkdownLinks
