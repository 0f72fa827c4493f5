import MarkdownLinks.Proofs.Link.Rewrite

/-!
Rewriting record by record. Records may have come to name other parents than the ones that hold their nodes; a link whose
slot would have to be found is then passed over, and all others are settled as if nothing had happened.
-/

namespace MarkdownLinks

open Rewriting

/-! ### Other parents -/

section Detach

variable (lost : Tag → Option Parent)

def LinkRecord.detach (r : LinkRecord) : LinkRecord := { r with parent := (lost r.node.tag).getD r.parent }

def DefinitionRecord.detach (d : DefinitionRecord) : DefinitionRecord := { d with parent := (lost d.tag).getD d.parent }

/-- An index of whose records some take other parents. -/
def Index.detach (index : Index) : Index :=
  { index with links := index.links.map (·.detach lost), definitions := index.definitions.map (·.detach lost) }

variable {lost}

theorem LinkRecord.detach_of_none {r : LinkRecord} (stays : lost r.node.tag = none) : r.detach lost = r := by
  rw [detach, stays]
  rfl

theorem DefinitionRecord.detach_of_none {d : DefinitionRecord} (stays : lost d.tag = none) : d.detach lost = d := by
  rw [detach, stays]
  rfl

variable (lost)

/-- Where links lead has nothing to do with parents. -/
theorem Index.resolve_detach (index : Index) (form : LinkForm) :
    (index.detach lost).resolve form = index.resolve form := by
  cases form with
  | inline target => rfl
  | reference label written =>
    have found : (index.detach lost).definition? (identifierOf label) =
        (index.definition? (identifierOf label)).map (·.detach lost) := by
      change (index.byIdentifier.lookup _).bind (fun i => (index.definitions.map (·.detach lost))[i]?) =
        ((index.byIdentifier.lookup _).bind fun i => index.definitions[i]?).map _
      rw [Option.map_bind]
      simp only [List.getElem?_map]
      rfl
    rw [resolve, resolve, found, Option.map_map]
    rfl

theorem Report.detect_detach (index : Index) : Report.detect (index.detach lost) = Report.detect index := by
  unfold Report.detect
  simp only [Index.resolve_detach]
  change Report.mk ((index.links.map (·.detach lost)).foldl _ []) = _
  rw [List.foldl_map]
  rfl

end Detach

/-! ### Nodes that are not held -/

/-- Other tags do not bring a node into the list of another one. -/
theorem Forest.Sole.unheld_retag {f : Forest} (sole : f.Sole) {φ : Tag → Container → Tag × Container}
    (places : ∀ t c, (φ t c).1.place = t.place) {tag : Tag} (known : tag ∈ f.document.tags) {parent : Parent}
    (unheld : f.holds parent tag = false) : Forest.holds { f with document := f.document.retag φ } parent tag = false := by
  refine sole.unheld (g := { f with document := f.document.retag φ }) ⟨sole.alone, sole.distinct.retag places⟩
    (fun t c ms member child => ?_) unheld
  obtain ⟨u, d, ns, old, same, rfl⟩ := Node.of_mem_retag member
  obtain ⟨m, inside, tagged⟩ := child
  obtain ⟨n, among, rfl⟩ := List.mem_map.mp inside
  refine ⟨u, d, ns, old, ?_, n, among, ?_⟩
  · rw [← places u d, same]
  · cases n with
    | leaf l => exact tagged
    | definition t label target => exact tagged
    | branch t container ks =>
      rw [Node.retag_branch] at tagged
      -- The child and the node agree in their places only, but no two nodes that are shown do.
      have place := congrArg Tag.place (Option.some.inj tagged)
      rw [places] at place
      have shown := Node.tag_mem_of_mem_subnodes (Node.mem_subnodes_below old among (Node.mem_subnodes_self _)) rfl
      exact congrArg some (List.inj_on_of_nodup_map sole.distinct shown known place)

/-! ### One record -/

namespace Rewriting

/-- Whether a link is left as it is because its slot would have to be found. -/
def skips (report : Report) (lost : Tag → Option Parent) (r : LinkRecord) : Bool :=
  (lost r.node.tag).isSome && (!r.node.form.isReference || report.isConflicting r.id)

theorem replace?_of_unheld {w : Rewriting} {i : Nat} {record : LinkRecord} {form : LinkForm}
    (unheld : w.forest.holds record.parent record.node.tag = false) : w.replace? i record form = none := by
  unfold replace?
  split
  · rw [unheld]
    rfl
  · rfl

variable {report : Report} {start : Rewriting} {lost : Tag → Option Parent} {settled left : List LinkRecord}
  {r : LinkRecord}

theorem Tracks_sublist {rs rs' : List LinkRecord} {tree : Node} (tracks : Tracks rs tree) (part : rs'.Sublist rs) :
    Tracks rs' tree :=
  ⟨(part.map _).trans tracks.sights, fun r inside => tracks.below r (part.subset inside)⟩

theorem Ready.others (ready : Ready start settled r left) (p : LinkRecord → Bool) :
    Ready start (settled.filter p) r left :=
  ⟨ready.sole, Tracks_sublist ready.tracks (List.filter_sublist.append (List.Sublist.refl _))⟩

/-- What becomes of a record, detached or not. -/
def passRecord (report : Report) (index : Index) (lost : Tag → Option Parent) (r : LinkRecord) : LinkRecord :=
  { r.detach lost with node := if skips report lost r then r.node else settle report index r }

/-- The state of rewriting after some of the records and before others, when links are passed over. -/
def passing (report : Report) (start : Rewriting) (lost : Tag → Option Parent) (converted : Nat)
    (settled left : List LinkRecord) : Rewriting :=
  { forest := settledForest report start (settled.filter (!skips report lost ·))
    index := { start.index.detach lost with
      links := settled.map (passRecord report start.index lost) ++ left.map (·.detach lost) }
    converted }

theorem eq_passing {f : Forest} {links : List LinkRecord} {converted : Nat}
    (forest : f = settledForest report start (settled.filter (!skips report lost ·)))
    (records : links = settled.map (passRecord report start.index lost) ++ left.map (·.detach lost)) :
    Rewriting.mk f { start.index.detach lost with links } converted =
      passing report start lost converted settled left := by
  subst forest records
  rfl

theorem filter_of_not_skips (taken : skips report lost r = false) :
    (settled ++ [r]).filter (!skips report lost ·) = settled.filter (!skips report lost ·) ++ [r] := by
  rw [List.filter_append, List.filter_singleton, taken]
  rfl

theorem Ready.pass_still (ready : Ready start settled r left) (converted : Nat)
    (same : skips report lost r = false → settle report start.index r = r.node) :
    passing report start lost converted settled (r :: left) =
      passing report start lost converted (settled ++ [r]) left := by
  refine eq_passing ?_ ?_
  · cases skipped : skips report lost r with
    | true => rw [List.filter_append, List.filter_singleton, skipped, Bool.not_true, cond_false, List.append_nil]
    | false => rw [filter_of_not_skips skipped, (ready.others _).keep (same skipped)]
  · have record : passRecord report start.index lost r = r.detach lost := by
      unfold passRecord
      split
      · rfl
      · rename_i taken
        rw [same (by simpa using taken)]
        rfl
    rw [List.map_append, List.map_singleton, record, List.map_cons, List.append_assoc, List.singleton_append]

theorem Ready.pass_unheld (ready : Ready start settled r left)
    (unheld : ∀ p, lost r.node.tag = some p → start.forest.holds p r.node.tag = false) (converted : Nat) {p : Parent}
    (detached : lost r.node.tag = some p) :
    (passing report start lost converted settled (r :: left)).forest.holds p r.node.tag = false := by
  have known : r.node.tag ∈ start.forest.document.tags := List.mem_map_of_mem ready.seen
  exact ready.sole.unheld_retag (relink_place report start.index _) known (unheld p detached)

/-- A replacement comes about unless the record is detached. -/
theorem Ready.pass_replace? (ready : Ready start settled r left)
    (unheld : ∀ p, lost r.node.tag = some p → start.forest.holds p r.node.tag = false) (converted : Nat)
    {form : LinkForm} (becomes : settle report start.index r = ⟨r.node.tag.next, form, r.node.position⟩) :
    (passing report start lost converted settled (r :: left)).replace? settled.length (r.detach lost) form =
      if (lost r.node.tag).isSome then none else some (passing report start lost converted (settled ++ [r]) left) := by
  cases detached : lost r.node.tag with
  | some p =>
    rw [Option.isSome_some, if_pos rfl]
    refine replace?_of_unheld ?_
    change (passing report start lost converted settled (r :: left)).forest.holds ((lost r.node.tag).getD _) _ = false
    rw [detached]
    exact ready.pass_unheld unheld converted detached
  | none =>
    have taken : skips report lost r = false := by
      rw [skips, detached]
      rfl
    have record : passRecord report start.index lost r = replaced r form := by
      rw [passRecord, LinkRecord.detach_of_none detached, taken, becomes]
      rfl
    rw [LinkRecord.detach_of_none detached, Option.isSome_none, if_neg Bool.false_ne_true]
    refine ((ready.others _).replace? becomes rfl settled.length).trans (congrArg some (eq_passing ?_ ?_))
    · rw [filter_of_not_skips taken]
    · rw [List.map_append, List.map_singleton, record]
      simp [passing]

theorem Ready.pass_relabel (ready : Ready start settled r left) (converted : Nat) {form : LinkForm}
    (taken : skips report lost r = false)
    (becomes : settle report start.index r = ⟨r.node.tag, form, r.node.position⟩) :
    (passing report start lost converted settled (r :: left)).relabel r.node.tag form =
      passing report start lost converted (settled ++ [r]) left := by
  have forest := (ready.others (!skips report lost ·)).relabel becomes
    (w := passing report start lost converted settled (r :: left)) rfl
  have record : passRecord report start.index lost r = { r.detach lost with node := { r.node with form } } := by
    rw [passRecord, taken, becomes]
    rfl
  -- Records settled before this one may have moved on to other tags, but they keep their places.
  have links : ∀ update : LinkRecord → LinkRecord, (∀ q, q.node.tag ≠ r.node.tag → update q = q) →
      update (r.detach lost) = { r.detach lost with node := { r.node with form } } →
      (settled.map (passRecord report start.index lost) ++ (r :: left).map (·.detach lost)).map update =
        (settled ++ [r]).map (passRecord report start.index lost) ++ left.map (·.detach lost) := by
    intro update same own
    rw [List.map_append, List.map_cons, List.map_cons, own, List.map_append, List.map_singleton, record, List.append_assoc]
    congr 1
    · rw [List.map_map]
      refine List.map_congr_left fun q inside => same _ fun eq => ready.apart (Or.inl inside) ?_
      have place : (passRecord report start.index lost q).node.tag.place = q.node.tag.place := by
        unfold passRecord
        split
        · rfl
        · exact settle_place report start.index q
      rw [← place, eq]
    · rw [List.singleton_append, List.map_map]
      congr 1
      exact List.map_congr_left fun q inside => same _ fun eq => ready.apart (Or.inr inside) (congrArg Tag.place eq)
  exact eq_passing (forest.trans (congrArg _ (filter_of_not_skips taken).symm))
    (links _ (fun q other => if_neg other) (if_pos rfl))

/-- One step settles the link of the next record or passes over it. -/
theorem Ready.pass (ready : Ready start settled r left)
    (unheld : ∀ p, lost r.node.tag = some p → start.forest.holds p r.node.tag = false) (converted : Nat) :
    Rewriting.step report (passing report start lost converted settled (r :: left)) settled.length =
      passing report start lost (converted + if converts report r && (lost r.node.tag).isNone then 1 else 0)
        (settled ++ [r]) left := by
  have next : (passing report start lost converted settled (r :: left)).index.links[settled.length]? =
      some (r.detach lost) := by
    simp [passing]
  have resolve : ∀ form, (passing report start lost converted settled (r :: left)).index.resolve form =
      start.index.resolve form := by
    intro form
    refine Eq.trans ?_ (Index.resolve_detach lost start.index form)
    cases form <;> rfl
  have own : (r.detach lost).id = r.id := rfl
  have node : (r.detach lost).node = r.node := rfl
  have identity : (r.detach lost).identity = r.identity := rfl
  simp only [Rewriting.step, next, resolve, own, node, identity]
  cases form : r.node.form with
  | inline target =>
    cases conflict : report.isConflicting r.id with
    | true =>
      have same : settle report start.index r = r.node := by simp [settle, form, conflict]
      simpa [converts, form, conflict] using ready.pass_still converted fun _ => same
    | false =>
      cases sole : report.resolvedUrl r.id with
      | none =>
        have same : settle report start.index r = r.node := by simp [settle, form, conflict, sole]
        simpa [converts, form, conflict, sole] using ready.pass_still converted fun _ => same
      | some url =>
        have becomes : settle report start.index r =
            ⟨r.node.tag.next, .reference r.identity .shortcut, r.node.position⟩ := by
          simp [settle, form, conflict, sole]
        simp only [ready.pass_replace? unheld converted becomes]
        cases detached : lost r.node.tag with
        | none => simp [converts, form, conflict, sole, passing, LinkForm.isReference]
        | some p =>
          have skipped : skips report lost r := by simp [skips, detached, form, LinkForm.isReference]
          simpa using ready.pass_still converted fun taken => by simp [skipped] at taken
  | reference label written =>
    have counted : converts report r = false := by simp [converts, form, LinkForm.isReference]
    rw [counted]
    cases conflict : report.isConflicting r.id with
    | true =>
      rcases lead : start.index.resolve (.reference label written) with ⟨_ | url, title⟩
      · have same : settle report start.index r = r.node := by simp [settle, form, conflict, lead]
        simpa using ready.pass_still converted fun _ => same
      · have becomes : settle report start.index r =
            ⟨r.node.tag.next, .inline ⟨url, title⟩, r.node.position⟩ := by
          simp [settle, form, conflict, lead]
        simp only [ready.pass_replace? unheld converted becomes]
        cases detached : lost r.node.tag with
        | none => simp
        | some p =>
          have skipped : skips report lost r := by simp [skips, detached, conflict]
          simpa using ready.pass_still converted fun taken => by simp [skipped] at taken
    | false =>
      cases sole : report.resolvedUrl r.id with
      | none =>
        have same : settle report start.index r = r.node := by simp [settle, form, conflict, sole]
        simpa using ready.pass_still converted fun _ => same
      | some url =>
        have becomes : settle report start.index r =
            ⟨r.node.tag, .reference r.identity .shortcut, r.node.position⟩ := by
          simp [settle, form, conflict, sole]
        have taken : skips report lost r = false := by simp [skips, form, conflict, LinkForm.isReference]
        simpa using ready.pass_relabel converted taken becomes

/-! ### All records -/

/-- A run settles the links of all records that it does not pass over. -/
theorem pass_from (report : Report) (start : Rewriting) (sole : start.forest.Sole)
    (tracks : Tracks start.index.links start.forest.document)
    (unheld : ∀ t p, lost t = some p → start.forest.holds p t = false) {settled left : List LinkRecord} (converted : Nat)
    (split : settled ++ left = start.index.links) :
    (List.range' settled.length left.length).foldl (step report) (passing report start lost converted settled left) =
      passing report start lost (converted + left.countP fun r => converts report r && (lost r.node.tag).isNone)
        start.index.links [] := by
  -- The records settled so far say all about the state that the next step starts from.
  induction left generalizing settled converted with
  | nil => simp [← split]
  | cons r left ih =>
    have ready : Ready start settled r left := ⟨sole, split ▸ tracks⟩
    have later := ih (converted + if converts report r && (lost r.node.tag).isNone then 1 else 0)
      (show (settled ++ [r]) ++ left = start.index.links by rw [← split, List.append_assoc, List.singleton_append])
    rw [List.length_cons, List.range'_succ, List.foldl_cons, ready.pass (unheld r.node.tag)]
    rw [List.length_append, List.length_singleton] at later
    rw [later, List.countP_cons]
    congr 1
    omega

/-- A run over an index of whose records some are detached. -/
theorem run_passing (report : Report) (start : Rewriting) (lost : Tag → Option Parent) (sole : start.forest.Sole)
    (tracks : Tracks start.index.links start.forest.document)
    (unheld : ∀ t p, lost t = some p → start.forest.holds p t = false) :
    Rewriting.run report { start with index := start.index.detach lost } =
      passing report start lost
        (start.converted + start.index.links.countP fun r => converts report r && (lost r.node.tag).isNone)
        start.index.links [] := by
  have first : passing report start lost start.converted [] start.index.links =
      { start with index := start.index.detach lost } := by
    have same : start.forest.document.retag (relink report start.index []) = start.forest.document :=
      Node.retag_eq_self fun _ _ _ _ => rfl
    simp only [passing, settledForest, List.filter_nil, same, List.map_nil, List.nil_append]
    rfl
  have all := pass_from report start sole tracks unheld start.converted (List.nil_append start.index.links)
  rw [first, List.length_nil, ← List.range_eq_range'] at all
  rw [← all, run]
  congr 2
  exact List.length_map _

/-- When no record is detached, the links of all are settled. -/
theorem run_eq (report : Report) (start : Rewriting) (sole : start.forest.Sole)
    (tracks : Tracks start.index.links start.forest.document) :
    start.run report =
      between report start (start.converted + start.index.links.countP (converts report)) start.index.links [] := by
  have all := run_passing report start (fun _ => none) sole tracks fun _ _ => nofun
  have taken : ∀ r, skips report (fun _ => none) r = false := fun _ => rfl
  have links : start.index.links.map (·.detach fun _ => none) = start.index.links := List.map_id _
  have definitions : start.index.definitions.map (·.detach fun _ => none) = start.index.definitions := List.map_id _
  have detached : start.index.detach (fun _ => none) = start.index := by
    rw [Index.detach, links, definitions]
  have records : passRecord report start.index (fun _ => none) = settleRecord report start.index := rfl
  simpa [detached, passing, settledForest, between, taken, records] using all

end Rewriting
end MarkdownLinks
