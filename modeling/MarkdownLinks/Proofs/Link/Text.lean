import MarkdownLinks.Proofs.Link.Faithful

/-!
The texts of links. A run changes what stands around the text of a link and leaves the text alone, as long as there
are no links and no definitions in it. Such documents are called flat here, and their links keep their identities.
-/

namespace MarkdownLinks

open Rewriting

namespace Node

/-- The identity of a link with this text, unless it is empty or cannot be written. -/
def identityOf? (ns : List Node) : Option Text :=
  match (fresh .paragraph ns).identity with
  | .ok identity => if identity.isEmpty then none else some identity
  | .error _ => none

def linkText? : Node → Option ((Tag × LinkForm) × Text)
  | branch tag (.link form _) ns => (identityOf? ns).map ((tag, form), ·)
  | _ => none

/-- The links of a tree that have an identity, in walk order. -/
def texts (n : Node) : List ((Tag × LinkForm) × Text) := n.subnodes.filterMap linkText?

/-- The links of a tree that have an identity, without their tags. -/
def wordings (n : Node) : List (LinkForm × Text) := n.texts.map fun x => (x.1.2, x.2)

/-- Whether there are no links and no definitions in the text of a node, if the node is a link. -/
def plainText : Node → Bool
  | branch _ (.link _ _) ns => (ns.flatMap subnodes).all fun m => m.link?.isNone && m.definition?.isNone
  | _ => true

/-- Whether no text of a link has links or definitions in it. -/
def flat (n : Node) : Bool := n.subnodes.all plainText

/-- Whether no link stands below another. -/
def unnested (n : Node) : Bool :=
  n.subnodes.all fun
    | branch _ (.link _ _) ns => (ns.flatMap subnodes).all fun m => m.link?.isNone
    | _ => true

theorem texts_branch (tag : Tag) (container : Container) (ns : List Node) :
    (branch tag container ns).texts = (branch tag container ns).linkText?.toList ++ ns.flatMap texts := by
  rw [texts, subnodes_branch, List.filterMap_cons, List.filterMap_flatMap]
  cases (branch tag container ns).linkText? <;> rfl

theorem texts_of_not_isLink {tag : Tag} {container : Container} (ns : List Node) (other : container.isLink = false) :
    (branch tag container ns).texts = ns.flatMap texts := by
  rw [texts_branch]
  cases container with
  | link form position => exact absurd other.symm Bool.false_ne_true
  | _ => rfl

theorem texts_leaf (l : Leaf) : (leaf l).texts = [] := by
  rw [texts, List.filterMap_eq_nil_iff]
  intro m member
  obtain ⟨l', rfl⟩ := eq_leaf_of_mem_subnodes_leaf member
  rfl

theorem texts_of_isBlankLine (n : Node) (blank : n.isBlankLine) : n.texts = [] := by
  cases n with
  | leaf l => exact texts_leaf l
  | definition tag label target => rfl
  | branch tag container ns => exact absurd blank Bool.false_ne_true

theorem identityOf?_bare (ns : List Node) : identityOf? (ns.map bare) = identityOf? ns := by
  rw [identityOf?, identityOf?, identity, identity, renderInline_bare]

theorem linkText?_bare (n : Node) : n.bare.linkText?.map (fun x => (x.1.2, x.2)) = n.linkText?.map fun x => (x.1.2, x.2) := by
  cases n with
  | leaf l => rfl
  | definition tag label target => rfl
  | branch tag container ns =>
    rw [bare_branch]
    cases container with
    | link form position =>
      rw [Container.bare, linkText?, linkText?, identityOf?_bare, Option.map_map, Option.map_map]
      rfl
    | _ => rfl

theorem wordings_bare (n : Node) : n.bare.wordings = n.wordings := by
  rw [wordings, wordings, texts, texts, List.map_filterMap, List.map_filterMap]
  exact filterMap_bare linkText?_bare n

theorem flat_child {tag : Tag} {container : Container} {ns : List Node} (flat : (branch tag container ns).flat)
    {n : Node} (inside : n ∈ ns) : n.flat :=
  List.all_eq_true.mpr fun m member => List.all_eq_true.mp flat m (mem_subnodes_of_child inside member)

/-- In the text of a link of a flat tree nothing is a link or a definition. -/
theorem flat_below {n : Node} (flat : n.flat) {tag : Tag} {form : LinkForm} {position : Option Position} {ns : List Node}
    (member : .branch tag (.link form position) ns ∈ n.subnodes) {m : Node} (below : m ∈ ns.flatMap subnodes) :
    m.link? = none ∧ m.definition? = none := by
  have own := List.all_eq_true.mp (List.all_eq_true.mp flat _ member) m below
  simpa using own

theorem unnested_of_flat {n : Node} (flat : n.flat) : n.unnested := by
  refine List.all_eq_true.mpr fun m member => ?_
  cases m with
  | leaf l => rfl
  | definition tag label target => rfl
  | branch tag container ns =>
    cases container with
    | link form position => exact List.all_eq_true.mpr fun k below => by rw [(flat_below flat member below).1]; rfl
    | _ => rfl

theorem unnested_child {tag : Tag} {container : Container} {ns : List Node}
    (unnested : (branch tag container ns).unnested) {n : Node} (inside : n ∈ ns) : n.unnested :=
  List.all_eq_true.mpr fun m member => List.all_eq_true.mp unnested m (mem_subnodes_of_child inside member)

theorem link?_below {n : Node} (unnested : n.unnested) {tag : Tag} {form : LinkForm} {position : Option Position}
    {ns : List Node} (member : .branch tag (.link form position) ns ∈ n.subnodes) {m : Node}
    (below : m ∈ ns.flatMap subnodes) : m.link? = none := by
  have own := List.all_eq_true.mp (List.all_eq_true.mp unnested _ member) m below
  simpa using own

theorem not_isLink_below {n : Node} (unnested : n.unnested) {tag : Tag} {form : LinkForm} {position : Option Position}
    {ns : List Node} (member : .branch tag (.link form position) ns ∈ n.subnodes) {m : Node} (inside : m ∈ ns)
    {t : Tag} {c : Container} {ms : List Node} (below : .branch t c ms ∈ m.subnodes) : c.isLink = false := by
  have own := link?_below unnested member (List.mem_flatMap.mpr ⟨m, inside, below⟩)
  cases c with
  | link form position => exact nomatch own
  | _ => rfl

theorem texts_below {n : Node} (unnested : n.unnested) {tag : Tag} {form : LinkForm} {position : Option Position}
    {ns : List Node} (member : .branch tag (.link form position) ns ∈ n.subnodes) : ns.flatMap texts = [] := by
  refine List.flatMap_eq_nil_iff.mpr fun m inside => List.filterMap_eq_nil_iff.mpr fun k below => ?_
  have other := link?_below unnested member (List.mem_flatMap.mpr ⟨m, inside, below⟩)
  cases k with
  | leaf l => rfl
  | definition t label target => rfl
  | branch t c ms =>
    cases c with
    | link form position => exact nomatch other
    | _ => rfl

/-- Links in other forms keep their identities and their order, if no link stands below another. -/
theorem texts_retag {φ : Tag → Container → Tag × Container} {ψ : Tag × LinkForm → Tag × LinkForm} {n : Node}
    (unnested : n.unnested)
    (others : ∀ t c ns, .branch t c ns ∈ n.subnodes → c.isLink = false → φ t c = (t, c))
    (links : ∀ t form position ns, .branch t (.link form position) ns ∈ n.subnodes →
      ∃ position', φ t (.link form position) = ((ψ (t, form)).1, .link (ψ (t, form)).2 position')) :
    (n.retag φ).texts = n.texts.map (Prod.map ψ id) := by
  induction n with
  | leaf l =>
    rw [retag_leaf, texts_leaf]
    rfl
  | definition tag label target => rfl
  | branch tag container ns ih =>
    have self := mem_subnodes_self (branch tag container ns)
    cases link : container.isLink with
    | false =>
      rw [retag_branch, others _ _ _ self link, texts_of_not_isLink _ link, texts_of_not_isLink _ link,
        List.flatMap_map, List.map_flatMap]
      exact List.flatMap_congr fun m inside => ih m inside (unnested_child unnested inside)
        (fun t c ms member => others t c ms (mem_subnodes_of_child inside member))
        fun t form position ms member => links t form position ms (mem_subnodes_of_child inside member)
    | true =>
      cases container with
      | link form position =>
        have retagged : ns.map (retag φ) = ns := by
          refine (List.map_congr_left fun m inside => retag_eq_self fun t c ms member => ?_).trans (List.map_id ns)
          exact others t c ms (mem_subnodes_of_child inside member) (not_isLink_below unnested self inside member)
        obtain ⟨position', own⟩ := links _ _ _ _ self
        rw [retag_branch, retagged, own, texts_branch, texts_branch, texts_below unnested self, List.append_nil,
          List.append_nil, linkText?, linkText?]
        cases identityOf? ns <;> rfl
      | _ => exact absurd link Bool.false_ne_true

/-- What settling and cleaning have to leave alone for the texts of links to stay. -/
structure KeepsTexts (φ : Tag → Container → Tag × Container) (ψ : Tag × LinkForm → Tag × LinkForm)
    (κ : Tag → List Node → List Node) (n : Node) : Prop where
  others : ∀ t c ns, .branch t c ns ∈ n.subnodes → c.isLink = false → φ t c = (t, c)
  links : ∀ t form position ns, .branch t (.link form position) ns ∈ n.subnodes →
    φ t (.link form position) = ((ψ (t, form)).1, .link (ψ (t, form)).2 position)
  own : ∀ t form position ns, .branch t (.link form position) ns ∈ n.subnodes → κ (ψ (t, form)).1 ns = ns
  below : ∀ t form position ns, .branch t (.link form position) ns ∈ n.subnodes → ∀ t' c' ns',
    .branch t' c' ns' ∈ ns.flatMap subnodes → κ t' ns' = ns'
  silent : ∀ t c ns, .branch t c ns ∈ n.subnodes → c.isLink = false →
    (κ t (ns.map fun m => (m.retag φ).rebuild κ)).flatMap texts = (ns.map fun m => (m.retag φ).rebuild κ).flatMap texts

theorem KeepsTexts.child {φ : Tag → Container → Tag × Container} {ψ : Tag × LinkForm → Tag × LinkForm}
    {κ : Tag → List Node → List Node} {tag : Tag} {container : Container} {ns : List Node} {n : Node}
    (keeps : KeepsTexts φ ψ κ (branch tag container ns)) (inside : n ∈ ns) : KeepsTexts φ ψ κ n :=
  ⟨fun t c ms member => keeps.others t c ms (mem_subnodes_of_child inside member),
    fun t form position ms member => keeps.links t form position ms (mem_subnodes_of_child inside member),
    fun t form position ms member => keeps.own t form position ms (mem_subnodes_of_child inside member),
    fun t form position ms member => keeps.below t form position ms (mem_subnodes_of_child inside member),
    fun t c ms member => keeps.silent t c ms (mem_subnodes_of_child inside member)⟩

/-- The links keep their identities and their order. -/
theorem texts_retag_rebuild {φ : Tag → Container → Tag × Container} {ψ : Tag × LinkForm → Tag × LinkForm}
    {κ : Tag → List Node → List Node} {n : Node} (flat : n.flat) (keeps : KeepsTexts φ ψ κ n) :
    ((n.retag φ).rebuild κ).texts = n.texts.map (Prod.map ψ id) := by
  induction n with
  | leaf l =>
    change (leaf l).texts = _
    rw [texts_leaf]
    rfl
  | definition tag label target => rfl
  | branch tag container ns ih =>
    have self := mem_subnodes_self (branch tag container ns)
    cases link : container.isLink with
    | false =>
      have each : ∀ m ∈ ns, ((m.retag φ).rebuild κ).texts = m.texts.map (Prod.map ψ id) :=
        fun m inside => ih m inside (flat_child flat inside) (keeps.child inside)
      rw [retag_branch, keeps.others _ _ _ self link, rebuild_branch, texts_of_not_isLink _ link, List.map_map,
        texts_of_not_isLink _ link]
      have silent := keeps.silent tag container ns self link
      simp only [Function.comp_def] at silent ⊢
      rw [silent, List.flatMap_map, List.map_flatMap]
      exact List.flatMap_congr each
    | true =>
      cases container with
      | link form position =>
        -- Nothing in the text is a link or has lost a definition, so the text is the old one.
        have retagged : ns.map (retag φ) = ns := by
          refine (List.map_congr_left fun m inside => retag_eq_self fun t c ms member => ?_).trans (List.map_id ns)
          have other := not_isLink_below (unnested_of_flat flat) self inside member
          exact keeps.others t c ms (mem_subnodes_of_child inside member) other
        have rebuilt : ns.map (rebuild κ) = ns := by
          refine (List.map_congr_left fun m inside => rebuild_eq_self fun t c ms member => ?_).trans (List.map_id ns)
          exact keeps.below tag form position ns self t c ms (List.mem_flatMap.mpr ⟨m, inside, member⟩)
        rw [retag_branch, retagged, keeps.links _ _ _ _ self, rebuild_branch, rebuilt, keeps.own _ _ _ _ self,
          texts_branch, texts_branch, texts_below (unnested_of_flat flat) self, List.append_nil, List.append_nil,
          linkText?, linkText?]
        cases identityOf? ns <;> rfl
      | _ => exact absurd link Bool.false_ne_true

end Node

def LinkRecord.text (r : LinkRecord) : (Tag × LinkForm) × Text := ((r.node.tag, r.node.form), r.identity)

def LinkRecord.wording (r : LinkRecord) : LinkForm × Text := (r.node.form, r.identity)

theorem Index.Collected.texts {index : Index} {tree : Node} (all : index.Collected tree.walk) :
    index.links.map LinkRecord.text = tree.texts := by
  have shown := congrArg (List.filterMap fun s : Sight × Text => s.1.link?.map (·, s.2)) all.links
  rw [List.filterMap_map, List.filterMap_filterMap] at shown
  rw [← List.filterMap_eq_map, Node.texts, Node.subnodes, List.filterMap_map]
  refine shown.trans (List.filterMap_congr fun v _ => ?_)
  obtain ⟨node, parent⟩ := v
  cases node with
  | leaf l => rfl
  | definition tag label target => rfl
  | branch tag container ns =>
    cases container with
    | link form position =>
      have same : (Node.branch tag (.link form position) ns).identity = (Node.fresh .paragraph ns).identity := rfl
      simp only [Visit.link?, Function.comp_apply, Node.linkText?, Node.identityOf?, same]
      cases (Node.fresh .paragraph ns).identity with
      | error e => rfl
      | ok identity => cases empty : identity.isEmpty <;> simp [empty, Sight.link?]
    | _ => rfl

theorem Index.Collected.wordings {index : Index} {tree : Node} (all : index.Collected tree.walk) :
    index.links.map LinkRecord.wording = tree.wordings := by
  rw [Node.wordings, ← all.texts, List.map_map]
  rfl

theorem Index.leads_eq_wordings (index : Index) (k : Text) :
    index.leads k = ((index.links.map LinkRecord.wording).filter (·.2 = k)).filterMap fun x => index.lead? x.1 := by
  rw [List.filter_map, List.filterMap_map]
  rfl

theorem Index.keys_eq_wordings (index : Index) :
    index.keys = ((index.links.map LinkRecord.wording).map Prod.snd).eraseDups := by
  rw [List.map_map]
  rfl

end MarkdownLinks
