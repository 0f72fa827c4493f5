import MarkdownLinks.Proofs.Link.Findings

/-!
Where identities lead, said of their links alone: the different destinations, the first title, and the target if
there is one destination. The report that `detect` makes says the same of each identity under its id.
-/

namespace MarkdownLinks
namespace Index

/-- Where those of the records that belong to an identity lead, in order, as far as they lead anywhere. -/
def leadsOf (index : Index) (rs : List LinkRecord) (k : Text) : List (Text × Option Text) :=
  (rs.filter (·.identity = k)).filterMap fun r =>
    (index.resolve r.node.form).1.map (·, (index.resolve r.node.form).2)

/-- Where the links of an identity lead, each with its title. -/
def leads (index : Index) (k : Text) : List (Text × Option Text) := index.leadsOf index.links k

/-- The different destinations of an identity. -/
def destinations (index : Index) (k : Text) : List Text := ((index.leads k).map Prod.fst).eraseDups

/-- The first title among the links of an identity that lead somewhere. -/
def firstTitle (index : Index) (k : Text) : Option Text := (index.leads k).findSome? Prod.snd

/-- The target of an identity whose links all lead to one destination. -/
def soleTarget? (index : Index) (k : Text) : Option Target :=
  match index.destinations k with
  | [url] => some ⟨url, index.firstTitle k⟩
  | _ => none

def idOf (index : Index) (k : Text) : Nat := (index.ids.lookup k).getD 0

/-- What a report finds on an identity when it has looked at some of the records. -/
def findingsOf (index : Index) (rs : List LinkRecord) (k : Text) : Findings :=
  ⟨index.idOf k, ((index.leadsOf rs k).map Prod.fst).eraseDups, (index.leadsOf rs k).findSome? Prod.snd⟩

variable {index : Index} {seen : List Visit}

theorem lookup_of_mem {α β : Type} [BEq α] [LawfulBEq α] {k : α} {v : β} {l : List (α × β)}
    (nodup : (l.map Prod.fst).Nodup) (member : (k, v) ∈ l) : l.lookup k = some v := by
  cases found : l.lookup k with
  | none =>
    have absent : k ∉ l.map Prod.fst := fun inside => by simpa [found] using lookup_isSome_iff.mpr inside
    exact absurd (List.mem_map_of_mem member) absent
  | some w =>
    have twin := List.inj_on_of_nodup_map nodup (mem_of_lookup_eq_some found) member rfl
    rw [(Prod.mk.inj twin).2]

theorem Collected.idOf (all : index.Collected seen) {r : LinkRecord} (inside : r ∈ index.links) :
    index.idOf r.identity = r.id := by
  have nodup : (index.ids.map Prod.fst).Nodup := by
    rw [all.ids, List.zipIdx_map_fst]
    exact eraseDups_nodup _
  rw [Index.idOf, lookup_of_mem nodup (all.named r inside)]
  rfl

theorem mem_keys {k : Text} : k ∈ index.keys ↔ ∃ r ∈ index.links, r.identity = k := by
  rw [keys, List.mem_eraseDups, List.mem_map]

theorem Collected.idOf_inj (all : index.Collected seen) {k k' : Text} (key : k ∈ index.keys) (key' : k' ∈ index.keys)
    (same : index.idOf k = index.idOf k') : k = k' := by
  obtain ⟨r, inside, rfl⟩ := mem_keys.mp key
  obtain ⟨r', inside', rfl⟩ := mem_keys.mp key'
  rw [all.idOf inside, all.idOf inside'] at same
  exact (all.id_eq_iff inside inside').mp same

/-- What is found on an id is what can be said of its identity. -/
theorem Collected.findingsAt (all : index.Collected seen) {k : Text} (key : k ∈ index.keys) :
    index.findingsAt index.links (index.idOf k) = index.findingsOf index.links k := by
  have same : index.links.filterMap (index.leadFor (index.idOf k)) = index.leadsOf index.links k := by
    rw [leadsOf, List.filterMap_filter]
    refine List.filterMap_congr fun r inside => ?_
    have own : r.id = index.idOf k ↔ r.identity = k := by
      rw [← all.idOf inside]
      exact ⟨all.idOf_inj (mem_keys.mpr ⟨r, inside, rfl⟩) key, congrArg index.idOf⟩
    simp only [leadFor, own, decide_eq_true_eq]
  rw [Index.findingsAt, same, findingsOf]

/-- The report finds on each identity, in the order of the ids, its destinations and its first title. -/
theorem Collected.findings (all : index.Collected seen) :
    (Report.detect index).findings =
      index.keys.map fun k => ⟨index.idOf k, index.destinations k, index.firstTitle k⟩ := by
  have ids : (index.links.map (·.id)).eraseDups = index.keys.map index.idOf := by
    have named : index.links.map (·.id) = (index.links.map (·.identity)).map index.idOf := by
      rw [List.map_map]
      exact List.map_congr_left fun r inside => (all.idOf inside).symm
    rw [named, eraseDups_map fun k inside k' inside' =>
      all.idOf_inj (List.mem_eraseDups.mpr inside) (List.mem_eraseDups.mpr inside'), keys]
  rw [Report.detect_findings, ids, List.map_map]
  exact List.map_congr_left fun k key => all.findingsAt key

theorem Collected.findings? (all : index.Collected seen) {k : Text} (key : k ∈ index.keys) :
    (Report.detect index).findings? (index.idOf k) =
      some ⟨index.idOf k, index.destinations k, index.firstTitle k⟩ := by
  obtain ⟨r, inside, own⟩ := mem_keys.mp key
  have used : index.idOf k ∈ index.links.map (·.id) :=
    List.mem_map.mpr ⟨r, inside, by rw [← own, all.idOf inside]⟩
  rw [Report.detect_findings?, if_pos used, all.findingsAt key]
  rfl

theorem Collected.urls (all : index.Collected seen) {r : LinkRecord} (inside : r ∈ index.links) :
    (Report.detect index).urls r.id = index.destinations r.identity := by
  rw [Report.urls, ← all.idOf inside, all.findings? (mem_keys.mpr ⟨r, inside, rfl⟩)]
  rfl

theorem Collected.title (all : index.Collected seen) {r : LinkRecord} (inside : r ∈ index.links) :
    (Report.detect index).title r.id = index.firstTitle r.identity := by
  rw [Report.title, ← all.idOf inside, all.findings? (mem_keys.mpr ⟨r, inside, rfl⟩)]
  rfl

theorem Collected.isConflicting (all : index.Collected seen) {r : LinkRecord} (inside : r ∈ index.links) :
    (Report.detect index).isConflicting r.id = decide (1 < (index.destinations r.identity).length) := by
  rw [Report.isConflicting, all.urls inside]

theorem Collected.resolvedUrl (all : index.Collected seen) {r : LinkRecord} (inside : r ∈ index.links) :
    (Report.detect index).resolvedUrl r.id = (index.soleTarget? r.identity).map (·.dest) := by
  rw [Report.resolvedUrl, all.urls inside, soleTarget?]
  split <;> simp_all

theorem Collected.soleTarget? (all : index.Collected seen) {r : LinkRecord} (inside : r ∈ index.links) :
    ((Report.detect index).resolvedUrl r.id).map (⟨·, (Report.detect index).title r.id⟩) =
      index.soleTarget? r.identity := by
  rw [Report.resolvedUrl, all.urls inside, all.title inside, Index.soleTarget?]
  split <;> simp_all

theorem isConflicting_of_resolvedUrl {report : Report} {id : Nat} {url : Text}
    (sole : report.resolvedUrl id = some url) : report.isConflicting id = false := by
  unfold Report.resolvedUrl at sole
  split at sole
  · rename_i same
    rw [Report.isConflicting, same]
    rfl
  · exact nomatch sole

theorem Collected.conflictsFound (all : index.Collected seen) :
    (Report.detect index).conflictsFound = (index.keys.filter fun k => 1 < (index.destinations k).length).length := by
  rw [Report.conflictsFound, Report.conflicting, List.length_map, all.findings, List.filter_map, List.length_map]
  rfl

/-! ### One destination -/

theorem mem_destinations {k url : Text} : url ∈ index.destinations k ↔
    ∃ r ∈ index.links, r.identity = k ∧ (index.resolve r.node.form).1 = some url := by
  simp only [destinations, leads, leadsOf, List.mem_eraseDups, List.mem_map, List.mem_filterMap, List.mem_filter,
    decide_eq_true_eq, Option.map_eq_some_iff]
  constructor
  · rintro ⟨_, ⟨r, ⟨inside, own⟩, u, lead, rfl⟩, rfl⟩
    exact ⟨r, inside, own, lead⟩
  · rintro ⟨r, inside, own, lead⟩
    exact ⟨_, ⟨r, ⟨inside, own⟩, url, lead, rfl⟩, rfl⟩

theorem destinations_of_soleTarget? {k : Text} {t : Target} (sole : index.soleTarget? k = some t) :
    index.destinations k = [t.dest] := by
  unfold soleTarget? at sole
  split at sole
  · rename_i url same
    rw [same, ← Option.some.inj sole]
  · exact nomatch sole

theorem eq_dest_of_soleTarget? {r : LinkRecord} (inside : r ∈ index.links) {t : Target} {url : Text}
    (sole : index.soleTarget? r.identity = some t) (lead : (index.resolve r.node.form).1 = some url) :
    url = t.dest := by
  have member := mem_destinations.mpr ⟨r, inside, rfl, lead⟩
  rw [destinations_of_soleTarget? sole] at member
  exact List.mem_singleton.mp member

theorem exists_of_soleTarget? {k : Text} {t : Target} (sole : index.soleTarget? k = some t) :
    ∃ r ∈ index.links, r.identity = k ∧ (index.resolve r.node.form).1 = some t.dest :=
  mem_destinations.mp (by rw [destinations_of_soleTarget? sole]; exact List.mem_singleton_self _)

/-- The identities with one destination, in order of first occurrence, with their targets. -/
def soleTargets (index : Index) : List (Text × Target) :=
  index.keys.filterMap fun k => (index.soleTarget? k).map (k, ·)

theorem mem_soleTargets {k : Text} {t : Target} : (k, t) ∈ index.soleTargets ↔ index.soleTarget? k = some t := by
  rw [soleTargets, List.mem_filterMap]
  constructor
  · rintro ⟨k', -, shown⟩
    obtain ⟨t', sole, same⟩ := Option.map_eq_some_iff.mp shown
    obtain ⟨rfl, rfl⟩ := Prod.mk.inj same
    exact sole
  · intro sole
    obtain ⟨r, inside, own, -⟩ := exists_of_soleTarget? sole
    exact ⟨k, mem_keys.mpr ⟨r, inside, own⟩, by rw [sole, Option.map_some]⟩

theorem soleTargets_nodup (index : Index) : (index.soleTargets.map Prod.fst).Nodup := by
  have sublist : (index.soleTargets.map Prod.fst).Sublist (index.keys.filterMap some) := by
    rw [soleTargets, List.map_filterMap]
    refine filterMap_sublist (fun k k' shown => ?_) _
    obtain ⟨p, target, rfl⟩ := Option.map_eq_some_iff.mp shown
    obtain ⟨t, -, rfl⟩ := Option.map_eq_some_iff.mp target
    rfl
  rw [List.filterMap_some] at sublist
  exact sublist.nodup (eraseDups_nodup _)

theorem soleTarget?_isSome (k : Text) :
    (index.soleTarget? k).isSome = decide ((index.destinations k).length = 1) := by
  unfold soleTarget?
  rcases index.destinations k with _ | ⟨a, _ | ⟨b, ds⟩⟩ <;> simp

/-- Every identity has no destination, one or several. -/
theorem partition_keys (index : Index) :
    index.soleTargets.length + (index.keys.filter fun k => 1 < (index.destinations k).length).length +
      (index.keys.filter fun k => index.destinations k = []).length = index.keys.length := by
  unfold soleTargets
  induction index.keys with
  | nil => rfl
  | cons k ks ih =>
    have sole := index.soleTarget?_isSome k
    rcases dests : index.destinations k with _ | ⟨a, _ | ⟨b, ds⟩⟩ <;> cases target : index.soleTarget? k <;>
      simp [dests, target] at sole ⊢ <;> omega

end Index
end MarkdownLinks
