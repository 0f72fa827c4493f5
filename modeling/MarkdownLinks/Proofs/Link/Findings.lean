import MarkdownLinks.Link.Conflict
import MarkdownLinks.Proofs.Link.Index

/-!
What a report finds, said of the records alone. Whatever the index, there are findings for each id that a link has, in
order of first occurrence: where the links of the id lead, each destination once, and the first title.
-/

namespace MarkdownLinks
namespace Index

/-- Where a record leads, with its title, if it has the id and leads anywhere. -/
def leadFor (index : Index) (id : Nat) (r : LinkRecord) : Option (Text × Option Text) :=
  if r.id = id then (index.resolve r.node.form).1.map (·, (index.resolve r.node.form).2) else none

/-- What a report finds on an id when it has looked at some of the records. -/
def findingsAt (index : Index) (rs : List LinkRecord) (id : Nat) : Findings :=
  ⟨id, ((rs.filterMap (index.leadFor id)).map Prod.fst).eraseDups, (rs.filterMap (index.leadFor id)).findSome? Prod.snd⟩

variable {index : Index} {id : Nat} {rs : List LinkRecord} {r : LinkRecord}

theorem findingsAt_unused (unused : ∀ r ∈ rs, r.id ≠ id) : index.findingsAt rs id = ⟨id, [], none⟩ := by
  have nowhere : rs.filterMap (index.leadFor id) = [] :=
    List.filterMap_eq_nil_iff.mpr fun r inside => if_neg (unused r inside)
  rw [findingsAt, nowhere]
  rfl

/-- One record more is one note more on its id and nothing on the others. -/
theorem findingsAt_concat : index.findingsAt (rs ++ [r]) id = if id = r.id then
      (index.findingsAt rs id).note (index.resolve r.node.form).1 (index.resolve r.node.form).2
    else index.findingsAt rs id := by
  rw [findingsAt, List.filterMap_append]
  split
  · rename_i own
    cases lead : (index.resolve r.node.form).1 with
    | none => simp [leadFor, own, lead, findingsAt, Findings.note]
    | some url =>
      have last : [r].filterMap (index.leadFor id) = [(url, (index.resolve r.node.form).2)] := by
        simp [leadFor, own, lead]
      simp only [last, List.map_append, List.map_singleton, eraseDups_concat, List.findSome?_append,
        List.findSome?_singleton, findingsAt, Findings.note, List.contains_eq_mem, List.mem_eraseDups,
        decide_eq_true_eq]
      congr 1
      cases (rs.filterMap (index.leadFor id)).findSome? Prod.snd <;> rfl
  · rename_i other
    have last : [r].filterMap (index.leadFor id) = [] := by simp [leadFor, Ne.symm other]
    rw [last, List.append_nil]
    rfl

end Index

namespace Report

variable {index : Index}

theorem note_map {ids : List Nat} {id : Nat} {F : Nat → Findings} {url title : Option Text} (nodup : ids.Nodup)
    (own : ∀ i, (F i).id = i) : note id url title (ids.map F) =
      if id ∈ ids then ids.map fun i => if i = id then (F i).note url title else F i
      else ids.map F ++ [Findings.note ⟨id, [], none⟩ url title] := by
  induction ids with
  | nil => rfl
  | cons i ids ih =>
    obtain ⟨absent, nodup⟩ := List.nodup_cons.mp nodup
    rw [List.map_cons, note, own]
    by_cases same : i = id
    · subst same
      have others : (ids.map fun j => if j = i then (F j).note url title else F j) = ids.map F :=
        List.map_congr_left fun j member => if_neg fun (eq : j = i) => absent (eq ▸ member)
      rw [if_pos rfl, if_pos List.mem_cons_self, List.map_cons, if_pos rfl, others]
    · rw [if_neg same, ih nodup]
      by_cases member : id ∈ ids
      · rw [if_pos member, if_pos (List.mem_cons_of_mem _ member), List.map_cons, if_neg same]
      · rw [if_neg member, if_neg (by simpa [Ne.symm same] using member)]
        rfl

/-- A report has findings for the ids of the links, in order of first occurrence. -/
theorem detect_findings (index : Index) : (detect index).findings =
    (index.links.map (·.id)).eraseDups.map (index.findingsAt index.links) := by
  suffices general : ∀ rs : List LinkRecord,
      rs.foldl (fun fs r => note r.id (index.resolve r.node.form).1 (index.resolve r.node.form).2 fs) [] =
        (rs.map (·.id)).eraseDups.map (index.findingsAt rs) from general index.links
  intro rs
  induction rs using List.reverseRecOn with
  | nil => rfl
  | append_singleton rs r ih =>
    rw [List.foldl_append, ih, List.foldl_cons, List.foldl_nil, note_map (eraseDups_nodup _) fun _ => rfl,
      List.map_append, List.map_singleton, eraseDups_concat]
    simp only [List.mem_eraseDups]
    split
    · exact List.map_congr_left fun i _ => Index.findingsAt_concat.symm
    · rename_i new
      have unused : ∀ q ∈ rs, q.id ≠ r.id := fun q inside same => new (List.mem_map.mpr ⟨q, inside, same⟩)
      rw [List.map_append]
      congr 1
      · refine List.map_congr_left fun i known => ?_
        have other : i ≠ r.id := fun same => new (same ▸ List.mem_eraseDups.mp known)
        rw [Index.findingsAt_concat, if_neg other]
      · rw [List.map_singleton, Index.findingsAt_concat, if_pos rfl, Index.findingsAt_unused unused]

theorem detect_findings? (index : Index) (id : Nat) : (detect index).findings? id =
    if id ∈ index.links.map (·.id) then some (index.findingsAt index.links id) else none := by
  rw [findings?, detect_findings, List.find?_map]
  have own : (fun f : Findings => decide (f.id = id)) ∘ index.findingsAt index.links = fun i => decide (i = id) := rfl
  rw [own]
  cases found : (index.links.map (·.id)).eraseDups.find? fun i => decide (i = id) with
  | some i =>
    have same : i = id := by simpa using List.find?_some found
    rw [if_pos (same ▸ List.mem_eraseDups.mp (List.mem_of_find?_eq_some found)), same]
    rfl
  | none =>
    have unused : id ∉ index.links.map (·.id) := fun inside =>
      List.find?_eq_none.mp found id (List.mem_eraseDups.mpr inside) (decide_eq_true rfl)
    rw [if_neg unused]
    rfl

/-- An id that no link has leads nowhere. -/
theorem detect_urls (index : Index) (id : Nat) :
    (detect index).urls id = (index.findingsAt index.links id).urls := by
  rw [urls, detect_findings?]
  split
  · rfl
  · rename_i unused
    rw [Index.findingsAt_unused fun r inside own => unused (List.mem_map.mpr ⟨r, inside, own⟩)]
    rfl

theorem detect_title (index : Index) (id : Nat) :
    (detect index).title id = (index.findingsAt index.links id).title := by
  rw [title, detect_findings?]
  split
  · rfl
  · rename_i unused
    rw [Index.findingsAt_unused fun r inside own => unused (List.mem_map.mpr ⟨r, inside, own⟩)]
    rfl

end Report
end MarkdownLinks
