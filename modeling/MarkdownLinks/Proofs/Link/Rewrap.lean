import MarkdownLinks.Proofs.Link.Text
import MarkdownLinks.Proofs.Text.Normal
import MarkdownLinks.Proofs.Text.Replace

/-!
Identities of reflowed documents. The identity of a link with a plain text depends on the words of the text alone, so a
flat document whose texts have been wrapped is still described by the index it had before.
-/

namespace MarkdownLinks

/-! ### Plain texts as Markdown -/

namespace Node

/-- The text of nodes that are raw text and soft breaks, as it is written. -/
inductive Plain : List Node → Text → Prop
  | nil : Plain [] []
  | text (t : Text) {ns : List Node} {u : Text} (rest : Plain ns u) : Plain (leaf (.text t) :: ns) (t ++ u)
  | unescaped (t : Text) {ns : List Node} {u : Text} (rest : Plain ns u) : Plain (leaf (.unescaped t) :: ns) (t ++ u)
  | softBreak {ns : List Node} {u : Text} (rest : Plain ns u) : Plain (leaf (.lineBreak true) :: ns) ('\n' :: u)

theorem renderAll_plain {ps : List Node} {t : Text} (plain : Plain ps t) (first : Text) (ns : List Node) :
    renderAll [] first (ps ++ ns) = (renderAll [] first ns).map fun r => ⟨t ++ r.text, r.first⟩ := by
  induction plain with
  | nil => cases rest : renderAll [] first ns <;> simp [rest, Except.map]
  | text t rest ih =>
    rw [List.cons_append, renderAll, renderAt, Leaf.render, Text.replaceChar_self]
    simp only [bind, Except.bind, ih]
    cases renderAll [] first ns <;> simp [Except.map]
  | unescaped t rest ih | softBreak rest ih =>
    rw [List.cons_append, renderAll, renderAt, Leaf.render]
    simp only [bind, Except.bind, ih]
    cases renderAll [] first ns <;> simp [Except.map]

theorem renderInline_plain {ns : List Node} {t : Text} (plain : Plain ns t) (tag : Tag) (container : Container) :
    (branch tag container ns).renderInline = .ok t := by
  have alone := renderAll_plain plain [] []
  rw [List.append_nil] at alone
  rw [renderInline, children, alone, renderAll, Except.map, List.append_nil]
  rfl

/-- A plain text is written as it is, except that the space of a soft break is a line feed. -/
theorem plain_of_mapM_plainText? {ns : List Node} {ts : List Text} (plain : ns.mapM plainText? = some ts) :
    ∃ t, Plain ns t ∧ Text.Relaid t ts.flatten := by
  induction ns generalizing ts with
  | nil =>
    obtain rfl : [] = ts := by simpa using plain
    exact ⟨[], .nil, .nil⟩
  | cons n ns ih =>
    obtain ⟨t, us, first, rest, rfl⟩ := mapM_plainText?_cons plain
    obtain ⟨u, written, relaid⟩ := ih rest
    obtain ⟨l, rfl, -⟩ := eq_leaf_of_plainText? first
    cases l with
    | text v =>
      obtain rfl : v = t := Option.some.inj first
      exact ⟨v ++ u, .text v written, (Text.Relaid.refl v).append relaid⟩
    | unescaped v =>
      obtain rfl : v = t := Option.some.inj first
      exact ⟨v ++ u, .unescaped v written, (Text.Relaid.refl v).append relaid⟩
    | lineBreak soft =>
      cases soft with
      | true =>
        obtain rfl : [' '] = t := Option.some.inj first
        have gap : Text.Relaid (['\n'] ++ u) ([' '] ++ us.flatten) :=
          .gap (List.cons_ne_nil _ _) (List.cons_ne_nil _ _) rfl rfl relaid
        exact ⟨'\n' :: u, .softBreak written, gap⟩
      | false => cases first
    | _ => cases first

theorem identity_of_renderInline {n : Node} {t : Text} (written : n.renderInline = .ok t) :
    n.identity = .ok (Text.joinWith [' '] t.words) := by
  rw [identity, written, ← Text.normalize_eq_joinWith_words]
  rfl

/-- The identity of a plain text is its words. -/
theorem identity_plain {ns : List Node} {ts : List Text} (plain : ns.mapM plainText? = some ts) :
    (fresh .paragraph ns).identity = .ok (Text.joinWith [' '] (Text.words ts.flatten)) := by
  obtain ⟨t, written, relaid⟩ := plain_of_mapM_plainText? plain
  rw [identity_of_renderInline (renderInline_plain written _ _), relaid.words]

theorem identity_congr_words {ns : List Node} {ts : List Text} {text : Text} (plain : ns.mapM plainText? = some ts)
    (words : text.words = Text.words ts.flatten) :
    (fresh .paragraph [leaf (.text text)]).identity = (fresh .paragraph ns).identity := by
  have own : ([leaf (.text text)] : List Node).mapM plainText? = some [text] := rfl
  rw [identity_plain own, identity_plain plain, ← words, List.flatten_cons, List.flatten_nil, List.append_nil]

end Node

/-! ### Reflowed documents -/

variable {tree : Node} {fresh : Nat} {index : Index} {report : Report} {texts : Nat → Option Text}

namespace Wraps

/-- What stands in the text of a link is not wrapped itself, if no link stands below another. -/
theorem below (wraps : Wraps report index tree texts) (distinct : tree.Distinct) (unnested : tree.unnested) {t : Tag}
    {form : LinkForm} {position : Option Position} {ns : List Node}
    (member : .branch t (.link form position) ns ∈ tree.subnodes) : ns.map (Node.rewrap texts) = ns := by
  refine (List.map_congr_left fun m inside => ?_).trans (List.map_id ns)
  refine Node.rebuild_eq_self fun u c ms among => Node.rewrapped_of_none ?_ ms
  cases new : texts u.place with
  | none => rfl
  | some text =>
    obtain ⟨r, -, -, -, link, -⟩ := wraps.branch distinct (Node.mem_subnodes_below member inside among) new
    have other := Node.not_isLink_below unnested member inside among
    rw [link] at other
    exact nomatch other

theorem identity (wraps : Wraps report index tree texts) (distinct : tree.Distinct) (flat : tree.flat) {t : Tag}
    {form : LinkForm} {position : Option Position} {ns : List Node}
    (member : .branch t (.link form position) ns ∈ tree.subnodes) :
    (Node.fresh .paragraph (Node.rewrapped texts t (ns.map (Node.rewrap texts)))).identity =
      (Node.fresh .paragraph ns).identity := by
  rw [wraps.below distinct (Node.unnested_of_flat flat) member]
  cases new : texts t.place with
  | none => rw [Node.rewrapped_of_none new]
  | some text =>
    obtain ⟨r, -, old, -, -, -, -, plain, words⟩ := wraps.branch distinct member new
    rw [Node.rewrapped_of_some new, Node.identity_congr_words plain words]

theorem flat (wraps : Wraps report index tree texts) (distinct : tree.Distinct) (flat : tree.flat) :
    (tree.rewrap texts).flat := by
  refine List.all_eq_true.mpr fun m member => ?_
  cases m with
  | leaf l => rfl
  | definition tag label target => rfl
  | branch t c ms =>
    cases c with
    | link form position =>
      obtain ⟨ns, old, rfl⟩ := Node.of_mem_rewrap member
      rw [wraps.below distinct (Node.unnested_of_flat flat) old]
      cases new : texts t.place with
      | none =>
        rw [Node.rewrapped_of_none new]
        exact List.all_eq_true.mp flat _ old
      | some text =>
        rw [Node.rewrapped_of_some new]
        rfl
    | _ => rfl

end Wraps

theorem walkFrom_link?_of_leaf {n : Node} (leafy : n.tag? = none) (parent : Option Node) :
    (n.walkFrom parent).filterMap Visit.link? = [] := by
  cases n with
  | leaf l =>
    refine List.filterMap_eq_nil_iff.mpr fun v member => ?_
    rcases List.mem_cons.mp member with rfl | member
    · rfl
    · obtain ⟨child, inside, rfl⟩ := List.mem_map.mp member
      cases l <;> simp [Node.children, Leaf.codeText?] at inside <;> (subst inside; rfl)
  | definition tag label target => cases leafy
  | branch tag container ns => cases leafy

/-- The walk of a rewrapped tree shows the same links with the same identities, if the new texts keep the identities. -/
theorem walkFrom_link?_rewrap {n : Node}
    (identity : ∀ t form position ns, .branch t (.link form position) ns ∈ n.subnodes →
      (Node.fresh .paragraph (Node.rewrapped texts t (ns.map (Node.rewrap texts)))).identity =
        (Node.fresh .paragraph ns).identity)
    (tagless : ∀ t c ns, .branch t c ns ∈ n.subnodes → (texts t.place).isSome → ∀ m ∈ ns, m.tag? = none)
    {parent parent' : Option Node} (alike : Parent.ofNode? parent' = Parent.ofNode? parent) :
    ((n.rewrap texts).walkFrom parent').filterMap Visit.link? = (n.walkFrom parent).filterMap Visit.link? := by
  induction n generalizing parent parent' with
  | leaf l => rw [Node.rewrap_leaf, walkFrom_link?_of_leaf rfl, walkFrom_link?_of_leaf rfl]
  | definition tag label target => rfl
  | branch tag container ns ih =>
    have self := Node.mem_subnodes_self (Node.branch tag container ns)
    have own : (Visit.mk (.branch tag container (Node.rewrapped texts tag (ns.map (Node.rewrap texts)))) parent').link? =
        (Visit.mk (.branch tag container ns) parent).link? := by
      cases container with
      | link form position =>
        have same := identity tag form position ns self
        have moved : ∀ ms, (Node.branch tag (.link form position) ms).identity = (Node.fresh .paragraph ms).identity :=
          fun _ => rfl
        simp only [Visit.link?, moved, same, Visit.parentOf_eq, alike]
      | _ => rfl
    rw [Node.rewrap_branch, Node.walkFrom, Node.walkFrom, List.filterMap_cons, List.filterMap_cons, own,
      Node.walkAll_eq_flatMap, Node.walkAll_eq_flatMap, List.filterMap_flatMap, List.filterMap_flatMap]
    generalize same : Node.rewrapped texts tag (ns.map (Node.rewrap texts)) = ms
    have above : Parent.ofNode? (some (.branch tag container ms)) = Parent.ofNode? (some (.branch tag container ns)) := rfl
    have below : ms.flatMap (fun m => (m.walkFrom (some (.branch tag container ms))).filterMap Visit.link?) =
        ns.flatMap fun m => (m.walkFrom (some (.branch tag container ns))).filterMap Visit.link? := by
      generalize Option.some (Node.branch tag container ms) = q' at above ⊢
      cases new : texts tag.place with
      | none =>
        rw [← same, Node.rewrapped_of_none new, List.flatMap_map]
        exact List.flatMap_congr fun m inside =>
          ih m inside (fun t form position ks member => identity t form position ks (Node.mem_subnodes_of_child inside member))
            (fun t c ks member => tagless t c ks (Node.mem_subnodes_of_child inside member)) above
      | some text =>
        have leafy := tagless tag container ns self (by rw [new]; rfl)
        rw [← same, Node.rewrapped_of_some new, List.flatMap_singleton, walkFrom_link?_of_leaf rfl]
        exact (List.flatMap_eq_nil_iff.mpr fun m inside => walkFrom_link?_of_leaf (leafy m inside) _).symm
    rw [below]

/-- An index of a flat document describes the document with its texts wrapped, too. -/
theorem Index.Collected.rewrap (all : index.Collected tree.walk) (distinct : tree.Distinct) (flat : tree.flat)
    (wraps : Wraps report index tree texts) : index.Collected (tree.rewrap texts).walk := by
  refine ⟨?_, all.ids, all.named, all.groups, ?_, all.firsts⟩
  · rw [all.links]
    exact (walkFrom_link?_rewrap (fun t form position ns member => wraps.identity distinct flat member)
      (wraps.tagless distinct) rfl).symm
  · rw [all.definitions_eq, Node.walk_definitions, wraps.sights distinct]

theorem DocumentTree.rewrap (document : DocumentTree tree fresh) (wraps : Wraps report index tree texts) :
    DocumentTree (tree.rewrap texts) fresh := by
  have tags : (tree.rewrap texts).tags = tree.tags := by
    rw [Node.tags, Node.tags, wraps.sights document.distinct]
  refine ⟨?_, fun tag inside => document.bound tag (tags ▸ inside), ?_⟩
  · rw [Node.Distinct, tags]
    exact document.distinct
  · obtain ⟨tag, children, rfl⟩ := document.root
    exact ⟨tag, _, Node.rewrap_branch _ _ _⟩

theorem DocumentTree.children_rewrap (document : DocumentTree tree fresh) (wraps : Wraps report index tree texts) :
    (tree.rewrap texts).children = tree.children.map (Node.rewrap texts) := by
  have distinct := document.distinct
  obtain ⟨tag, children, rfl⟩ := document.root
  have top : texts tag.place = none := by
    cases new : texts tag.place with
    | none => rfl
    | some text =>
      obtain ⟨r, -, -, -, link, -⟩ := wraps.branch distinct (Node.mem_subnodes_self _) new
      exact nomatch link
  rw [Node.rewrap_branch, Node.rewrapped_of_none top]
  rfl

end MarkdownLinks
