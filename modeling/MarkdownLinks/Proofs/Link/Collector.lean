import Mathlib.Data.List.Basic
import Mathlib.Data.List.Induction
import Mathlib.Data.List.Nodup
import Mathlib.Data.List.TakeWhile
import MarkdownLinks.Proofs.Link.Index
import MarkdownLinks.Proofs.Node.Writable
import MarkdownLinks.Workbench

/-!
What an index holds after collecting from several trees one after the other. Its parts agree with each other and with the
visits at all times, also where a link that cannot be written breaks off a walk.
-/

namespace MarkdownLinks

/-- The heading that a visit shows: its tag, and whether it is underlined. -/
def Visit.heading? (v : Visit) : Option (Tag × Bool) :=
  match v.node with
  | .branch tag (.heading underlined _) _ => some (tag, underlined)
  | _ => none

namespace Index

/-- The places in `links` of the links with an identity. -/
def placesOf (index : Index) (k : Text) : List Nat := index.links.findIdxs (·.identity = k)

/-- How the parts of an index that are not lists of records belong to those that are. -/
structure Filed (index : Index) (seen : List Visit) : Prop where
  groups : index.groups = index.keys.map fun k => (k, index.placesOf k)
  headings : index.headings = (seen.filterMap Visit.heading?).mapIdx fun i h => ⟨i + 1, h.1, h.2⟩
  counted : ∀ before v after, seen = before ++ v :: after → v.link?.isSome →
    (index.links[(before.filterMap Visit.link?).length]?).map (·.heading) = some (before.filterMap Visit.heading?).length
  identifiers : index.byIdentifier.map Prod.fst = (index.definitions.map (·.identifier)).eraseDups

/-- What a visit does to an index, as far as it is filed. -/
inductive Step (index : Index) (v : Visit) : Index → Prop
  | nothing (link : v.link? = none) (heading : v.heading? = none) (definition : v.definition? = none) :
    Step index v index
  | heading (tag : Tag) (underlined : Bool) (link : v.link? = none) (shown : v.heading? = some (tag, underlined))
      (definition : v.definition? = none) : Step index v (index.addHeading tag underlined)
  | definition (tag : Tag) (label : Text) (target : Target) (link : v.link? = none) (heading : v.heading? = none)
      (shown : v.definition? = some ⟨identifierOf label, tag, target, v.parentOf⟩) :
    Step index v (index.addDefinition tag label target v.parentOf)
  | link (node : LinkNode) (identity : Text) (filled : identity.isEmpty = false)
      (shown : v.link? = some (⟨node.tag, .branch (.link node.form node.position), v.parentOf⟩, identity))
      (heading : v.heading? = none) (definition : v.definition? = none) :
    Step index v (index.addLink node identity v.parentOf)

variable {index index' : Index} {seen : List Visit} {v : Visit}

theorem step_of_add (added : index.add v = .ok index') : index.Step v index' := by
  obtain ⟨node, parent⟩ := v
  cases node with
  | leaf l =>
    obtain rfl := Except.ok.inj added
    exact .nothing rfl rfl rfl
  | definition tag label target =>
    obtain rfl := Except.ok.inj added
    exact .definition tag label target rfl rfl rfl
  | branch tag container ns =>
    cases container with
    | heading underlined level =>
      obtain rfl := Except.ok.inj added
      exact .heading tag underlined rfl rfl rfl
    | link form position =>
      simp only [add] at added
      cases text : (Node.branch tag (.link form position) ns).identity with
      | error e => simp [text, bind, Except.bind] at added
      | ok identity =>
        simp only [text, bind, Except.bind, Except.ok.injEq] at added
        subst added
        cases filled : identity.isEmpty with
        | true =>
          rw [addLink, if_pos filled]
          exact .nothing (by simp [Visit.link?, text, filled]) rfl rfl
        | false => exact .link ⟨tag, form, position⟩ identity filled (by simp [Visit.link?, text, filled]) rfl rfl
    | _ =>
      obtain rfl := Except.ok.inj added
      exact .nothing rfl rfl rfl

/-! ### Groups -/

theorem addToGroup_map {k : Text} {ks : List Text} (nodup : ks.Nodup) (i : Nat) (places : Text → List Nat) :
    addToGroup k i (ks.map fun k' => (k', places k')) =
      (ks.map fun k' => (k', places k' ++ if k' = k then [i] else [])) ++ if k ∈ ks then [] else [(k, [i])] := by
  induction ks with
  | nil => rfl
  | cons key ks ih =>
    obtain ⟨absent, nodup⟩ := List.nodup_cons.mp nodup
    rw [List.map_cons, addToGroup]
    by_cases same : key = k
    · subst same
      have rest : (ks.map fun k' => (k', places k' ++ if k' = key then [i] else [])) =
          ks.map fun k' => (k', places k') := by
        refine List.map_congr_left fun k' inside => ?_
        have other : k' ≠ key := by
          rintro rfl
          exact absent inside
        rw [if_neg other, List.append_nil]
      rw [if_pos rfl, List.map_cons, rest, if_pos rfl, if_pos List.mem_cons_self, List.append_nil]
    · rw [if_neg same, ih nodup, List.map_cons, if_neg same, List.append_nil]
      simp [Ne.symm same]

theorem placesOf_addLink (node : LinkNode) {identity : Text} (filled : identity.isEmpty = false) (parent : Parent)
    (k : Text) : (index.addLink node identity parent).placesOf k =
      index.placesOf k ++ if k = identity then [index.links.length] else [] := by
  rw [placesOf, addLink, if_neg (by simp [filled])]
  simp only [List.findIdxs_append, List.findIdxs_singleton, decide_eq_true_eq, Nat.zero_add]
  rw [placesOf]
  simp [eq_comm]

theorem keys_addLink (node : LinkNode) {identity : Text} (filled : identity.isEmpty = false) (parent : Parent) :
    (index.addLink node identity parent).keys = index.keys ++ if identity ∈ index.keys then [] else [identity] := by
  rw [keys, addLink, if_neg (by simp [filled])]
  simp only [List.map_append, List.map_cons, List.map_nil, eraseDups_concat, keys, List.mem_eraseDups]
  split <;> simp

/-! ### One visit more -/

theorem Filed.identifiers_addDefinition (before : index.Filed seen) (tag : Tag) (label : Text) (target : Target)
    (parent : Parent) : (index.addDefinition tag label target parent).byIdentifier.map Prod.fst =
      ((index.addDefinition tag label target parent).definitions.map (·.identifier)).eraseDups := by
  have known : index.byIdentifier.any (·.1 = identifierOf label) =
      decide (identifierOf label ∈ index.definitions.map (·.identifier)) := by
    rw [Bool.eq_iff_iff, decide_eq_true_iff, ← List.mem_eraseDups, ← before.identifiers]
    simp
  simp only [addDefinition, known, decide_eq_true_eq, List.map_append, List.map_cons, List.map_nil, eraseDups_concat]
  split
  · exact before.identifiers
  · rw [List.map_append, before.identifiers]
    rfl

/-- The counts before the links, when a visit comes that brings the links of `new`. -/
theorem Filed.counted_concat (all : index.Collected seen) (before : index.Filed seen) {new : List LinkRecord}
    (brings : v.link?.isSome → ∃ r, new = [r] ∧ r.heading = index.headings.length) {front back : List Visit} {u : Visit}
    (cut : seen ++ [v] = front ++ u :: back) (link : u.link?.isSome) :
    ((index.links ++ new)[(front.filterMap Visit.link?).length]?).map (·.heading) =
      some (front.filterMap Visit.heading?).length := by
  rcases List.eq_nil_or_concat back with rfl | ⟨back, w, rfl⟩
  · obtain ⟨rfl, last⟩ := List.append_inj' cut rfl
    obtain rfl := List.singleton_injective last
    obtain ⟨r, rfl, count⟩ := brings link
    rw [← all.links, List.length_map, List.getElem?_concat_length, Option.map_some, count, before.headings,
      List.length_mapIdx]
  · rw [List.concat_eq_append, ← List.cons_append, ← List.append_assoc] at cut
    obtain ⟨rfl, -⟩ := List.append_inj' cut rfl
    have old := before.counted front u back rfl link
    have bound : (front.filterMap Visit.link?).length < index.links.length := by
      by_contra beyond
      rw [List.getElem?_eq_none (by omega)] at old
      exact nomatch old
    rw [List.getElem?_append_left bound, old]

theorem Filed.counted_none (all : index.Collected seen) (before : index.Filed seen) (linkless : v.link? = none)
    {front back : List Visit} {u : Visit} (cut : seen ++ [v] = front ++ u :: back) (link : u.link?.isSome) :
    (index.links[(front.filterMap Visit.link?).length]?).map (·.heading) =
      some (front.filterMap Visit.heading?).length := by
  have brings : v.link?.isSome → ∃ r, ([] : List LinkRecord) = [r] ∧ r.heading = index.headings.length := by
    simp [linkless]
  rw [← before.counted_concat all brings cut link, List.append_nil]

theorem Filed.add (all : index.Collected seen) (before : index.Filed seen) (added : index.add v = .ok index') :
    index'.Filed (seen ++ [v]) := by
  cases step_of_add added with
  | nothing link heading definition =>
    refine ⟨before.groups, ?_, fun front u back cut shown => ?_, before.identifiers⟩
    · rw [List.filterMap_append, List.filterMap_cons, heading]
      simpa using before.headings
    · exact before.counted_none all link cut shown
  | heading tag underlined link shown definition =>
    refine ⟨before.groups, ?_, fun front u back cut shown => ?_, before.identifiers⟩
    · rw [List.filterMap_append, List.filterMap_cons, shown, addHeading, before.headings]
      simp [List.mapIdx_append]
    · exact before.counted_none all link cut shown
  | definition tag label target link heading shown =>
    refine ⟨before.groups, ?_, fun front u back cut shown => ?_, before.identifiers_addDefinition tag label target _⟩
    · rw [List.filterMap_append, List.filterMap_cons, heading, addDefinition]
      simpa using before.headings
    · exact before.counted_none all link cut shown
  | link node identity filled shown heading definition =>
    refine ⟨?_, ?_, fun front u back cut shown => ?_, ?_⟩
    · rw [keys_addLink node filled, List.map_append]
      simp only [placesOf_addLink node filled]
      have nodup : index.keys.Nodup := eraseDups_nodup _
      rw [addLink, if_neg (by simp [filled])]
      simp only [before.groups, addToGroup_map nodup]
      congr 1
      split
      · rfl
      · rename_i absent
        have absent : index.placesOf identity = [] := by
          rw [placesOf, List.findIdxs_eq_nil_iff]
          intro r inside
          refine decide_eq_false fun same => absent ?_
          exact List.mem_eraseDups.mpr (List.mem_map.mpr ⟨r, inside, same⟩)
        simp [absent]
    · rw [List.filterMap_append, List.filterMap_cons, heading, addLink, if_neg (by simp [filled])]
      simpa using before.headings
    · rw [addLink, if_neg (by simp [filled])]
      exact before.counted_concat all (fun _ => ⟨_, rfl, rfl⟩) cut shown
    · rw [addLink, if_neg (by simp [filled])]
      exact before.identifiers

/-! ### Whole walks -/

/-- What a call to collect leaves of an index: it goes through the visits up to the first link that cannot be written. -/
def absorb (index : Index) : List Visit → Index
  | [] => index
  | v :: vs =>
    match index.add v with
    | .ok next => next.absorb vs
    | .error _ => index

end Index

/-- The visits that a call to collect deals with. -/
def Node.met (tree : Node) : List Visit := tree.walk.takeWhile (·.node.textWritable)

namespace Index

theorem foldlM_takeWhile (index : Index) (vs : List Visit) :
    (vs.takeWhile (·.node.textWritable)).foldlM Index.add index = .ok (index.absorb vs) := by
  induction vs generalizing index with
  | nil => rfl
  | cons v vs ih =>
    have writable := Node.add_isOk index v
    rw [List.takeWhile_cons, absorb, ← writable]
    cases added : index.add v with
    | error e => rfl
    | ok next =>
      change (v :: vs.takeWhile (·.node.textWritable)).foldlM Index.add index = .ok (next.absorb vs)
      rw [List.foldlM_cons, added]
      exact ih next

theorem filed_empty : empty.Filed [] :=
  ⟨rfl, rfl, fun before v after cut => absurd cut (by simp), rfl⟩

/-- After any number of calls, an index holds what all of them together have met. -/
theorem absorb_all (trees : List Node) :
    (trees.foldl (fun index tree => index.absorb tree.walk) empty).Collected (trees.flatMap Node.met) ∧
      (trees.foldl (fun index tree => index.absorb tree.walk) empty).Filed (trees.flatMap Node.met) := by
  suffices further : ∀ (index : Index) (seen : List Visit), index.Collected seen ∧ index.Filed seen →
      (trees.foldl (fun index tree => index.absorb tree.walk) index).Collected (seen ++ trees.flatMap Node.met) ∧
        (trees.foldl (fun index tree => index.absorb tree.walk) index).Filed (seen ++ trees.flatMap Node.met) by
    simpa using further empty [] ⟨collected_empty, filed_empty⟩
  induction trees with
  | nil => simp
  | cons tree trees ih =>
    intro index seen before
    have after := run_induction (P := fun index seen => index.Collected seen ∧ index.Filed seen)
      (fun before added => ⟨before.1.add added, before.2.add before.1 added⟩) before (index.foldlM_takeWhile tree.walk)
    rw [List.foldl_cons, List.flatMap_cons, ← List.append_assoc]
    exact ih _ _ after

theorem collect_eq_absorb (index : Index) {tree : Node} (collectable : tree.collectable) :
    index.collect tree = .ok (index.absorb tree.walk) ∧ tree.met = tree.walk := by
  have whole : tree.met = tree.walk := by
    rw [Node.met, List.takeWhile_eq_self_iff]
    intro v visited
    exact List.all_eq_true.mp collectable v.node (List.mem_map_of_mem visited)
  refine ⟨?_, whole⟩
  rw [← foldlM_takeWhile, collect, ← Node.met, whole]

/-- Calls that do not break off return what they leave, and deal with all visits. -/
theorem foldlM_collect (trees : List Node) (index : Index) :
    match trees.foldlM collect index with
    | .ok after => after = trees.foldl (fun index tree => index.absorb tree.walk) index ∧
      trees.flatMap Node.met = trees.flatMap Node.walk
    | .error _ => ∃ tree ∈ trees, tree.collectable = false := by
  induction trees generalizing index with
  | nil => exact ⟨rfl, rfl⟩
  | cons tree trees ih =>
    rw [List.foldlM_cons]
    cases collected : index.collect tree with
    | error e =>
      refine ⟨tree, List.mem_cons_self, ?_⟩
      rw [← Node.collect_isOk index, collected]
      rfl
    | ok next =>
      have collectable : tree.collectable := by
        rw [← Node.collect_isOk index, collected]
        rfl
      obtain ⟨left, whole⟩ := index.collect_eq_absorb collectable
      obtain rfl : next = index.absorb tree.walk := Except.ok.inj (collected.symm.trans left)
      have later := ih (index.absorb tree.walk)
      change match trees.foldlM collect (index.absorb tree.walk) with
        | .ok after => _
        | .error _ => _
      cases rest : trees.foldlM collect (index.absorb tree.walk) with
      | error e =>
        rw [rest] at later
        obtain ⟨other, among, stuck⟩ := later
        exact ⟨other, List.mem_cons_of_mem _ among, stuck⟩
      | ok after =>
        rw [rest] at later
        obtain ⟨same, visits⟩ := later
        refine ⟨same, ?_⟩
        rw [List.flatMap_cons, List.flatMap_cons, whole, visits]

/-! ### The branches above links -/

theorem mem_walkFrom {n : Node} {parent : Option Node} {v : Visit} (visited : v ∈ n.walkFrom parent) :
    v = ⟨n, parent⟩ ∨ ∃ m, v.parent = some m ∧ v.node ∈ m.children := by
  induction n generalizing parent with
  | leaf l =>
    rcases List.mem_cons.mp visited with rfl | below
    · exact Or.inl rfl
    · obtain ⟨child, inside, rfl⟩ := List.mem_map.mp below
      exact Or.inr ⟨.leaf l, rfl, inside⟩
  | definition tag label target => exact Or.inl (List.mem_singleton.mp visited)
  | branch tag container ns ih =>
    rw [Node.walkFrom, Node.walkAll_eq_flatMap] at visited
    rcases List.mem_cons.mp visited with rfl | below
    · exact Or.inl rfl
    · obtain ⟨m, inside, further⟩ := List.mem_flatMap.mp below
      rcases ih m inside further with rfl | deeper
      · exact Or.inr ⟨_, rfl, inside⟩
      · exact Or.inr deeper

theorem parent_of_link? {v : Visit} {s : Sight} {k : Text} (link : v.link? = some (s, k)) : s.parent = v.parentOf := by
  unfold Visit.link? at link
  split at link
  · split at link
    · split at link
      · exact nomatch link
      · rw [← (Prod.mk.inj (Option.some.inj link)).1]
    · exact nomatch link
  · exact nomatch link

/-- A link in a document is a child of the branch through which it has been reached. -/
theorem branch_of_link? {tag : Tag} {children : List Node} {v : Visit} {s : Sight} {k : Text}
    (visited : v ∈ (Node.branch tag .document children).walk) (link : v.link? = some (s, k)) :
    ∃ t c ns, v.parent = some (.branch t c ns) ∧ s.parent = .branch t c ∧ v.node ∈ ns := by
  rcases mem_walkFrom visited with rfl | ⟨m, above, inside⟩
  · exact nomatch link
  · cases m with
    | branch t c ns =>
      refine ⟨t, c, ns, above, ?_, inside⟩
      rw [parent_of_link? link, Visit.parentOf, above]
    | definition t label target => exact nomatch inside
    | leaf l =>
      obtain ⟨text, -, same⟩ := Option.map_eq_some_iff.mp (Option.mem_toList.mp inside)
      rw [Visit.link?, ← same] at link
      cases link

/-! ### Ids and groups -/

variable {index : Index} {seen : List Visit}

theorem Collected.key_of_id (all : index.Collected seen) {r : LinkRecord} (inside : r ∈ index.links) :
    1 ≤ r.id ∧ index.keys[r.id - 1]? = some r.identity := by
  have named := all.named r inside
  rwa [all.ids, List.mk_mem_zipIdx_iff_le_and_getElem?_sub] at named

theorem Collected.id_eq_iff_key (all : index.Collected seen) {r : LinkRecord} (inside : r ∈ index.links) {i : Nat}
    {k : Text} (slot : index.keys[i]? = some k) : r.id = i + 1 ↔ r.identity = k := by
  obtain ⟨positive, own⟩ := all.key_of_id inside
  constructor
  · intro same
    rw [same, Nat.add_sub_cancel, slot] at own
    exact (Option.some.inj own).symm
  · intro same
    have bound : r.id - 1 < index.keys.length := (List.getElem?_eq_some_iff.mp own).1
    have equal := (List.getElem?_inj bound (eraseDups_nodup _)).mp (own.trans (same ▸ slot.symm))
    omega

/-- The ids are the numbers from one on, each first met where its identity is. -/
theorem Collected.ids_numbered (all : index.Collected seen) :
    (index.links.map (·.id)).eraseDups = List.range' 1 index.keys.length := by
  have nodup : index.keys.Nodup := eraseDups_nodup _
  have position : index.links.map (·.id) = (index.links.map (·.identity)).map fun k => index.keys.idxOf k + 1 := by
    rw [List.map_map]
    refine List.map_congr_left fun r inside => ?_
    obtain ⟨positive, own⟩ := all.key_of_id inside
    obtain ⟨bound, slot⟩ := List.getElem?_eq_some_iff.mp own
    rw [Function.comp_apply, ← slot, nodup.idxOf_getElem]
    omega
  rw [position, eraseDups_map]
  · refine List.ext_getElem (by simp [keys]) fun i bound bound' => ?_
    simp only [List.length_map] at bound
    rw [List.getElem_map, List.getElem_range']
    have own : index.keys.idxOf index.keys[i] = i := nodup.idxOf_getElem i bound
    change index.keys.idxOf index.keys[i] + 1 = _
    omega
  · intro k inside k' inside' same
    have member : k ∈ index.keys := List.mem_eraseDups.mpr inside
    exact (List.idxOf_inj member).mp (by omega)

/-- The groups share the places of the links out among them. -/
theorem Filed.partition (filed : index.Filed seen) :
    (index.groups.flatMap Prod.snd).Perm (List.range index.links.length) := by
  rw [filed.groups, List.flatMap_map]
  rw [List.perm_ext_iff_of_nodup]
  · intro i
    rw [List.mem_flatMap, List.mem_range]
    constructor
    · rintro ⟨k, -, inside⟩
      obtain ⟨bound, -⟩ := List.mem_findIdxs_iff_exists_getElem_pos.mp inside
      exact bound
    · intro bound
      refine ⟨index.links[i].identity, List.mem_eraseDups.mpr (List.mem_map_of_mem (List.getElem_mem bound)), ?_⟩
      exact List.mem_findIdxs_iff_exists_getElem_pos.mpr ⟨bound, decide_eq_true rfl⟩
  · rw [List.nodup_flatMap]
    refine ⟨fun k inside => List.nodup_findIdxs, (eraseDups_nodup _).imp fun apart => ?_⟩
    intro i own other
    obtain ⟨bound, first⟩ := List.mem_findIdxs_iff_exists_getElem_pos.mp own
    obtain ⟨_, second⟩ := List.mem_findIdxs_iff_exists_getElem_pos.mp other
    exact apart ((of_decide_eq_true first).symm.trans (of_decide_eq_true second))
  · exact List.nodup_range

/-! ### Any number of calls -/

/-- What the parts of an index have to do with each other and with the visits it was collected from. -/
structure Coherent (index : Index) (seen : List Visit) : Prop where
  links : index.links.map (fun r => (r.sight, r.identity)) = seen.filterMap Visit.link?
  held : ∀ r ∈ index.links, ∃ v ∈ seen, v.link? = some (r.sight, r.identity) ∧
    ∃ t c ns, v.parent = some (.branch t c ns) ∧ r.parent = .branch t c ∧ v.node ∈ ns
  ids : ∀ r ∈ index.links, ∀ r' ∈ index.links, r.id = r'.id ↔ r.identity = r'.identity
  numbered : (index.links.map (·.id)).eraseDups = List.range' 1 index.groups.length
  groups : ∀ i k places, index.groups[i]? = some (k, places) →
    places = index.links.findIdxs (·.identity = k) ∧ ∀ r ∈ index.links, r.id = i + 1 ↔ r.identity = k
  partition : (index.groups.flatMap Prod.snd).Perm (List.range index.links.length)
  headings : index.headings = (seen.filterMap Visit.heading?).mapIdx fun i h => ⟨i + 1, h.1, h.2⟩
  counted : ∀ before v after, seen = before ++ v :: after → v.link?.isSome →
    (index.links[(before.filterMap Visit.link?).length]?).map (·.heading) = some (before.filterMap Visit.heading?).length
  definitions : index.definitions = seen.filterMap Visit.definition?
  identifiers : index.byIdentifier.map Prod.fst = (index.definitions.map (·.identifier)).eraseDups
  firsts : ∀ k, index.byIdentifier.lookup k = index.definitions.findIdx? (·.identifier = k)

/-- However often a workbench collects once more, nothing but its index changes. -/
theorem foldlM_collectMore (n : Nat) (w : Workbench) : (List.replicate n ()).foldlM (fun w _ => w.collectMore) w =
    (fun index => { w with index }) <$> (List.replicate n w.forest.document).foldlM collect w.index := by
  induction n generalizing w with
  | zero => rfl
  | succ n ih =>
    rw [List.replicate_succ, List.replicate_succ, List.foldlM_cons, List.foldlM_cons, Workbench.collectMore]
    cases collected : w.index.collect w.forest.document with
    | error e => rfl
    | ok index => exact ih { w with index }

/-- After any number of calls to collect on one index, its parts are coherent. It holds what all the calls have met; a call
that does not break off meets every node of its tree, and nothing but the index changes. -/
theorem collect_coherent (roots : List (Tag × List Node)) :
    let trees := roots.map fun root => Node.branch root.1 .document root.2
    let left := trees.foldl (fun index tree => index.absorb tree.walk) empty
    left.Coherent (trees.flatMap Node.met) ∧
      (match trees.foldlM collect empty with
        | .ok index => index = left ∧ trees.flatMap Node.met = trees.flatMap Node.walk
        | .error _ => ∃ tree ∈ trees, tree.collectable = false) ∧
      ∀ (w : Workbench) (n : Nat), (List.replicate n ()).foldlM (fun w _ => w.collectMore) w =
        (fun index => { w with index }) <$> (List.replicate n w.forest.document).foldlM collect w.index := by
  intro trees left
  obtain ⟨all, filed⟩ := absorb_all trees
  have length : left.groups.length = left.keys.length := by rw [← all.groups, List.length_map]
  refine ⟨⟨all.links, fun r inside => ?_, fun r inside r' inside' => all.id_eq_iff inside inside', ?_, ?_,
    filed.partition, filed.headings, filed.counted, all.definitions, filed.identifiers, all.firsts⟩,
    foldlM_collect trees empty, fun w n => foldlM_collectMore n w⟩
  · have shown : (r.sight, r.identity) ∈ (trees.flatMap Node.met).filterMap Visit.link? := by
      rw [← all.links]
      exact List.mem_map_of_mem inside
    obtain ⟨v, visited, link⟩ := List.mem_filterMap.mp shown
    refine ⟨v, visited, link, ?_⟩
    obtain ⟨tree, among, met⟩ := List.mem_flatMap.mp visited
    obtain ⟨root, -, rfl⟩ := List.mem_map.mp among
    have walked := (List.takeWhile_sublist _).subset met
    exact branch_of_link? walked link
  · rw [length]
    exact all.ids_numbered
  · intro i k places slot
    rw [filed.groups, List.getElem?_map] at slot
    obtain ⟨key, own, same⟩ := Option.map_eq_some_iff.mp slot
    obtain ⟨rfl, rfl⟩ := Prod.mk.inj same
    exact ⟨rfl, fun r inside => all.id_eq_iff_key inside own⟩

end Index
end MarkdownLinks
