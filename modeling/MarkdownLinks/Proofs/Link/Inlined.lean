import MarkdownLinks.Proofs.Link.Rewritten
import MarkdownLinks.Proofs.Link.Text

/-!
References that are written out. A reference that leads somewhere can be replaced by an inline link to there, in its
slot and with its children. If no link stands below another, such a document has the identities that the old one has,
and they lead where they led.
-/

namespace MarkdownLinks

open Rewriting

namespace Index

/-- Where a chosen reference leads, if it leads anywhere. -/
def inlined? (index : Index) (chosen : Tag → Bool) (r : LinkRecord) : Option Target :=
  if chosen r.node.tag && r.node.form.isReference then
    match index.resolve r.node.form with
    | (some url, title) => some ⟨url, title⟩
    | (none, _) => none
  else none

def inlinedAt? (index : Index) (chosen : Tag → Bool) (t : Tag) : Option Target :=
  (index.links.find? (·.node.tag = t)).bind (index.inlined? chosen)

/-- What writing out the chosen references makes of a branch. The new links may be said to stand anywhere. -/
def inlining (index : Index) (chosen : Tag → Bool) (positions : Tag → Option Position) (t : Tag) (c : Container) :
    Tag × Container :=
  match index.inlinedAt? chosen t with
  | some target => (t, .link (.inline target) (positions t))
  | none => (t, c)

/-- The form of a link after the chosen references have been written out. -/
def inlinedForm (index : Index) (chosen : Tag → Bool) (t : Tag) (form : LinkForm) : LinkForm :=
  match index.inlinedAt? chosen t with
  | some target => .inline target
  | none => form

end Index

variable {tree : Node} {fresh : Nat} {index after : Index} {chosen : Tag → Bool} {positions : Tag → Option Position}
  {r : LinkRecord}

/-! ### The tree -/

theorem resolve_of_inlined? {target : Target} (written : index.inlined? chosen r = some target) :
    r.node.form.isReference ∧ index.resolve r.node.form = (some target.dest, target.title) := by
  unfold Index.inlined? at written
  split at written
  · rename_i asked
    split at written
    · rename_i url title lead
      obtain rfl := Option.some.inj written
      refine ⟨?_, lead⟩
      simp only [Bool.and_eq_true] at asked
      exact asked.2
    · exact nomatch written
  · exact nomatch written

theorem inlining_place (t : Tag) (c : Container) : (index.inlining chosen positions t c).1 = t := by
  unfold Index.inlining
  split <;> rfl

theorem inlinedAt?_record (distinct : tree.Distinct) (tracks : Tracks index.links tree) (inside : r ∈ index.links) :
    index.inlinedAt? chosen r.node.tag = index.inlined? chosen r := by
  rw [Index.inlinedAt?, find?_record distinct tracks inside]
  rfl

theorem inlining_of_not_isLink (distinct : tree.Distinct) (tracks : Tracks index.links tree) {t : Tag} {c : Container}
    {ns : List Node} (member : .branch t c ns ∈ tree.subnodes) (other : c.isLink = false) :
    index.inlining chosen positions t c = (t, c) := by
  unfold Index.inlining Index.inlinedAt?
  cases found : index.links.find? (·.node.tag = t) with
  | none => rfl
  | some r =>
    rw [← record_tag found] at member
    rw [container_of_record distinct tracks (List.mem_of_find?_eq_some found) member] at other
    exact nomatch other

theorem inlining_link (t : Tag) (form : LinkForm) (position : Option Position) :
    ∃ position', index.inlining chosen positions t (.link form position) =
      (t, .link (index.inlinedForm chosen t form) position') := by
  unfold Index.inlining Index.inlinedForm
  split
  · exact ⟨_, rfl⟩
  · exact ⟨_, rfl⟩

theorem inlining_alike (distinct : tree.Distinct) (tracks : Tracks index.links tree) (t : Tag) (c : Container)
    (ns : List Node) (member : .branch t c ns ∈ tree.subnodes) :
    Node.Alike c (index.inlining chosen positions t c).2 := by
  cases link : c.isLink with
  | false => exact Or.inl (by rw [inlining_of_not_isLink distinct tracks member link])
  | true =>
    cases c with
    | link form position =>
      obtain ⟨position', same⟩ : ∃ position', index.inlining chosen positions t (.link form position) =
          (t, .link (index.inlinedForm chosen t form) position') := inlining_link t form position
      rw [same]
      exact Or.inr ⟨rfl, rfl⟩
    | _ => exact nomatch link

theorem DocumentTree.inlined (document : DocumentTree tree fresh) (all : index.Collected tree.walk)
    (chosen : Tag → Bool) (positions : Tag → Option Position) :
    DocumentTree (tree.retag (index.inlining chosen positions)) fresh := by
  have places : ∀ t c, (index.inlining chosen positions t c).1.place = t.place := fun t c =>
    congrArg Tag.place (inlining_place t c)
  refine ⟨document.distinct.retag places, fun tag inside => ?_, ?_⟩
  · rw [Node.tags, Node.sights_retag, List.map_map] at inside
    obtain ⟨s, seen, rfl⟩ := List.mem_map.mp inside
    rw [Function.comp_apply, retag_place places]
    exact document.bound _ (List.mem_map_of_mem seen)
  · have distinct := document.distinct
    have tracks := document.tracks all
    obtain ⟨tag, children, rfl⟩ := document.root
    rw [Node.retag_branch, inlining_of_not_isLink distinct tracks (Node.mem_subnodes_self _) rfl]
    exact ⟨tag, _, rfl⟩

theorem collect_inlined (document : DocumentTree tree fresh) (collect : Index.empty.collect tree = .ok index)
    (chosen : Tag → Bool) (positions : Tag → Option Position) :
    ∃ after, Index.empty.collect (tree.retag (index.inlining chosen positions)) = .ok after := by
  have tracks := document.tracks (Index.collected collect)
  have collectable : tree.collectable := Node.collectable_eq collect
  rw [← isOk_iff, Node.collect_isOk]
  exact Node.collectable_retag (inlining_alike document.distinct tracks) collectable

/-! ### Its index -/

/-- The index of a document with some references written out, beside that of the document. -/
structure Inlined (tree : Node) (fresh : Nat) (index after : Index) (chosen : Tag → Bool)
    (positions : Tag → Option Position) : Prop where
  document : DocumentTree tree fresh
  all : index.Collected tree.walk
  unnested : tree.unnested
  again : after.Collected (tree.retag (index.inlining chosen positions)).walk

namespace Inlined

theorem texts (h : Inlined tree fresh index after chosen positions) : after.links.map LinkRecord.text =
    index.links.map fun r => ((r.node.tag, index.inlinedForm chosen r.node.tag r.node.form), r.identity) := by
  have tracks := h.document.tracks h.all
  rw [h.again.texts, Node.texts_retag (ψ := fun x => (x.1, index.inlinedForm chosen x.1 x.2)) h.unnested
    (fun t c ns member other => inlining_of_not_isLink h.document.distinct tracks member other)
    (fun t form position ns _ => inlining_link t form position), ← h.all.texts, List.map_map]
  rfl

theorem record (h : Inlined tree fresh index after chosen positions) (inside : r ∈ index.links) :
    ∃ r' ∈ after.links, r'.node.tag = r.node.tag ∧
      r'.node.form = index.inlinedForm chosen r.node.tag r.node.form ∧ r'.identity = r.identity := by
  have among : ((r.node.tag, index.inlinedForm chosen r.node.tag r.node.form), r.identity) ∈
      after.links.map LinkRecord.text := by
    rw [h.texts]
    exact List.mem_map_of_mem inside
  obtain ⟨r', inside', same⟩ := List.mem_map.mp among
  obtain ⟨own, identity⟩ := Prod.mk.inj same
  obtain ⟨tag, form⟩ := Prod.mk.inj own
  exact ⟨r', inside', tag, form, identity⟩

theorem record_before (h : Inlined tree fresh index after chosen positions) {r' : LinkRecord} (inside : r' ∈ after.links) :
    ∃ r ∈ index.links, r'.node.tag = r.node.tag ∧
      r'.node.form = index.inlinedForm chosen r.node.tag r.node.form ∧ r'.identity = r.identity := by
  have among := List.mem_map_of_mem (f := LinkRecord.text) inside
  rw [h.texts] at among
  obtain ⟨r, old, same⟩ := List.mem_map.mp among
  obtain ⟨own, identity⟩ := Prod.mk.inj same.symm
  obtain ⟨tag, form⟩ := Prod.mk.inj own
  exact ⟨r, old, tag, form, identity⟩

/-- The definitions are the same, below parents of the same tags. -/
theorem definitions (h : Inlined tree fresh index after chosen positions) : after.definitions =
    index.definitions.map fun d => { d with parent := d.parent.retag (index.inlining chosen positions) } := by
  rw [h.again.definitions_eq, Node.sights_retag, h.all.definitions_eq, List.filterMap_map, List.map_filterMap]
  refine List.filterMap_congr fun s _ => ?_
  obtain ⟨tag, face, parent⟩ := s
  cases face <;> rfl

theorem definition_tags (h : Inlined tree fresh index after chosen positions) :
    after.definitions.map (·.tag) = index.definitions.map (·.tag) := by
  rw [h.definitions, List.map_map]
  rfl

theorem definition_parents (h : Inlined tree fresh index after chosen positions) :
    after.definitions.filterMap (·.parent.tag?) = index.definitions.filterMap (·.parent.tag?) := by
  rw [h.definitions, List.filterMap_map]
  refine List.filterMap_congr fun d _ => ?_
  rw [Function.comp_apply]
  cases d.parent with
  | branch tag container => exact congrArg some (inlining_place tag container)
  | none => rfl
  | leaf => rfl

theorem resolve (h : Inlined tree fresh index after chosen positions) (form : LinkForm) :
    after.resolve form = index.resolve form := by
  cases form with
  | inline target => rfl
  | reference label written =>
    rw [Index.resolve, Index.resolve, h.again.definition?, h.all.definition?, h.definitions, List.find?_map]
    change (Option.map _ (Option.map _ (index.definitions.find? fun d => d.identifier = identifierOf label))).getD _ = _
    cases index.definitions.find? fun d => d.identifier = identifierOf label <;> rfl

/-- A link leads where it led before it was written out. -/
theorem lead? (h : Inlined tree fresh index after chosen positions) (inside : r ∈ index.links) :
    after.lead? (index.inlinedForm chosen r.node.tag r.node.form) = index.lead? r.node.form := by
  have same : index.resolve (index.inlinedForm chosen r.node.tag r.node.form) = index.resolve r.node.form := by
    rw [Index.inlinedForm, inlinedAt?_record h.document.distinct (h.document.tracks h.all) inside]
    cases written : index.inlined? chosen r with
    | none => rfl
    | some target =>
      obtain ⟨-, lead⟩ := resolve_of_inlined? written
      have filled : (index.resolve r.node.form).1 = some target.dest := congrArg Prod.fst lead
      have again := Index.resolve_resolved filled
      rw [lead] at again ⊢
      exact again
  rw [Index.lead?, Index.lead?, h.resolve, same]

theorem leads (h : Inlined tree fresh index after chosen positions) (k : Text) : after.leads k = index.leads k := by
  have wordings : after.links.map LinkRecord.wording =
      index.links.map fun r => (index.inlinedForm chosen r.node.tag r.node.form, r.identity) := by
    have same := congrArg (List.map fun x : (Tag × LinkForm) × Text => (x.1.2, x.2)) h.texts
    rwa [List.map_map, List.map_map] at same
  rw [after.leads_eq_wordings, index.leads_eq_wordings, wordings, List.filter_map, List.filter_map, List.filterMap_map,
    List.filterMap_map]
  exact List.filterMap_congr fun r among => h.lead? (List.mem_filter.mp among).1

theorem destinations (h : Inlined tree fresh index after chosen positions) (k : Text) :
    after.destinations k = index.destinations k := by
  rw [Index.destinations, h.leads, Index.destinations]

theorem soleTarget? (h : Inlined tree fresh index after chosen positions) (k : Text) :
    after.soleTarget? k = index.soleTarget? k := by
  rw [Index.soleTarget?, Index.soleTarget?, h.destinations, Index.firstTitle, Index.firstTitle, h.leads]

theorem keys (h : Inlined tree fresh index after chosen positions) : after.keys = index.keys := by
  have identities := congrArg (List.map Prod.snd) h.texts
  rw [List.map_map, List.map_map] at identities
  exact congrArg List.eraseDups identities

theorem idOf (h : Inlined tree fresh index after chosen positions) (k : Text) : after.idOf k = index.idOf k := by
  rw [Index.idOf, h.again.ids, h.keys, ← h.all.ids, Index.idOf]

/-- Where nothing is written out, a link is rewritten as before; what is written out comes to have the form that the
reference comes to have. -/
theorem rewrittenForm (h : Inlined tree fresh index after chosen positions) (inside : r ∈ index.links)
    {r' : LinkRecord} (form : r'.node.form = index.inlinedForm chosen r.node.tag r.node.form)
    (identity : r'.identity = r.identity) : after.rewrittenForm r' = index.rewrittenForm r := by
  have written : index.inlinedAt? chosen r.node.tag = index.inlined? chosen r :=
    inlinedAt?_record h.document.distinct (h.document.tracks h.all) inside
  rw [Index.inlinedForm, written] at form
  unfold Index.rewrittenForm
  rw [identity, h.destinations]
  cases inlined : index.inlined? chosen r with
  | none =>
    rw [inlined] at form
    rw [form, h.resolve]
  | some target =>
    rw [inlined] at form
    obtain ⟨reference, lead⟩ := resolve_of_inlined? inlined
    have member := Index.mem_destinations.mpr ⟨r, inside, rfl, congrArg Prod.fst lead⟩
    rcases dests : index.destinations r.identity with _ | ⟨url, _ | ⟨other, more⟩⟩
    · rw [dests] at member
      exact nomatch member
    · rfl
    · simp only [form, lead]
      cases own : r.node.form with
      | inline target' =>
        rw [own] at reference
        exact nomatch reference
      | reference label shape => rfl

end Inlined
end MarkdownLinks
