import ProjectFile.Markup.Problem
import ProjectFile.Proofs.Markup.Nesting
import ProjectFile.Proofs.Markup.Parts

/-!
Which end tag closes which element, read off the concrete tree of a text.

What is proved of every text:

1. an end tag right below an element is the last thing in it and names it or nothing
   (`Site.Closes`);
2. every other end tag stands in an error below elements that it does not name, and one without a
   name only at the top of the document (`Site.IsStray`);
3. an element that lacks its end tag stops at the end of the text, or where an end tag starts that
   closes the nearest element around it of the name that the end tag bears (`Site.EndsEarly`);
4. there are as many complaints about unclosed elements as there are such elements.

The first three are one induction over the nodes. It carries the rules of nesting
(`Node.NestedAll`), the names of the elements around (`Within`), and what is known of the tree
about the place after a node (`FollowedBy`).
-/

namespace ProjectFile.Markup

open Concrete (sites sitesOfAll placeAll Plain Forall ForallOfAll)

namespace Site

/-- Whether an end tag closes the element `p`: it comes last in it and names it, or nothing. -/
def Closes (s : Site) (p : Placed) : Prop :=
  p.children.getLast? = some s.here ∧
    (s.here.tree.nameLeaf? = none ∨ s.here.tree.nameLeaf? = p.tree.elementName?)

/-- Whether an end tag is set apart in an error: no element around it bears its name, and if it has
no name there is nothing around but the document. -/
def IsStray (s : Site) : Prop :=
  ∃ wrapper outer, s.around = wrapper :: outer ∧ wrapper.tree.kind = .inr .error ∧
    (∀ n, s.here.tree.nameLeaf? = some n →
      ∀ a ∈ outer, a.tree.kind = .inr .element → a.tree.elementName? ≠ some n) ∧
    (s.here.tree.nameLeaf? = none → outer.map (fun a => a.tree.kind) = [.inr .document])

/-- Whether the nearest of some trees that is an element of the name `n` has an end tag of that name
at `offset`. -/
def ClosedAt (around : List Placed) (n : Text) (offset : Nat) : Prop :=
  ∃ inner a outer, around = inner ++ a :: outer ∧
    (∀ b ∈ inner, b.tree.elementName? ≠ some n) ∧
    a.tree.kind = .inr .element ∧ a.tree.elementName? = some n ∧
    ∃ e ∈ a.children, e.tree.kind = .inr .endTag ∧ e.tree.nameLeaf? = some n ∧ e.start = offset

/-- Whether a tree stops at the end of the text or where an end tag closes an element around it. -/
def EndsEarly (length : Nat) (s : Site) : Prop :=
  s.here.stop = length ∨ ∃ n, ClosedAt s.around n s.here.stop

/-- The rules for end tags at one site of a text of `length` bytes. -/
structure Matched (length : Nat) (s : Site) : Prop where
  closes : s.here.tree.kind = .inr .endTag →
    ∀ p ∈ s.around.head?, p.tree.kind = .inr .element → s.Closes p
  stray : s.here.tree.kind = .inr .endTag →
    (∀ p ∈ s.around.head?, p.tree.kind ≠ .inr .element) → s.IsStray
  early : s.here.tree.isUnclosed = true → s.EndsEarly length

end Site

theorem Concrete.isUnclosed_eq_false {c : Concrete} (h : c.kind ≠ .inr .element) :
    c.isUnclosed = false := by
  simp [isUnclosed, h]

theorem Site.Matched.of_plain {s : Site} (h : s.here.tree.Plain) (length : Nat) :
    s.Matched length where
  closes hkind := absurd hkind h.2
  stray hkind := absurd hkind h.2
  early hunclosed := by
    rw [Concrete.isUnclosed_eq_false h.1] at hunclosed
    cases hunclosed

/-! ## The end tags among the nodes -/

/-- Whether some trees around a place are elements with the given start tags, in a document. -/
def Within (around : List Placed) (tags : List StartTag) : Prop :=
  ∃ elements document, around = elements ++ [document] ∧ document.tree.kind = .inr .document ∧
    elements.map (fun p => p.tree.elementName?) = tags.map StartTag.name

/-- What the trees around a node tell about the offset after it. -/
def FollowedBy (around : List Placed) (length offset : Nat) : Next → Prop
  | .sibling => True
  | .endTag name => ∀ n, name = some n → Site.ClosedAt around n offset
  | .nothing => offset = length

theorem Within.cons {around : List Placed} {tags : List StartTag} (h : Within around tags)
    (offset : Nat) (tag : StartTag) (content : List Node) (endTag : Option EndTag) :
    Within (⟨offset, (Node.element tag content endTag).concrete⟩ :: around) (tag :: tags) := by
  obtain ⟨elements, document, rfl, hkind, hnames⟩ := h
  refine ⟨⟨offset, _⟩ :: elements, document, rfl, hkind, ?_⟩
  rw [List.map_cons, List.map_cons, hnames, Node.elementName?_concrete]

/-- An element of another name does not hide the one that an end tag closes. -/
theorem Site.ClosedAt.cons {around : List Placed} {n : Text} {offset : Nat}
    (h : ClosedAt around n offset) {p : Placed} (hp : p.tree.elementName? ≠ some n) :
    ClosedAt (p :: around) n offset := by
  obtain ⟨inner, a, outer, rfl, hinner, ha⟩ := h
  exact ⟨p :: inner, a, outer, rfl, List.forall_mem_cons.2 ⟨hp, hinner⟩, ha⟩

/-- The end tag of an element is the last tree below it. -/
theorem Node.getLast?_children (offset : Nat) (tag : StartTag) (content : List Node)
    (closer : EndTag) :
    (Placed.mk offset (Node.element tag content (some closer)).concrete).children.getLast? =
      some ⟨offset + tag.text.width + Node.widthOfAll content, closer.concrete⟩ := by
  rw [Placed.children, Node.concrete, Concrete.children, placeAll, Option.map_some,
    Option.toList_some, Concrete.placeAll_append, tag.width_concrete, Node.width_concreteOfAll,
    placeAll, placeAll, ← List.cons_append, List.getLast?_concat]

/-- The element that an end tag closes is the nearest around it of the end tag's name. -/
theorem Site.ClosedAt.of_endTag (around : List Placed) (offset : Nat) {tag : StartTag}
    (content : List Node) {closer : EndTag} {n : Text} (hn : closer.name = some n)
    (hname : closer.name = none ∨ closer.name = tag.name) :
    ClosedAt (⟨offset, (Node.element tag content (some closer)).concrete⟩ :: around) n
      (offset + tag.text.width + Node.widthOfAll content) := by
  refine ⟨[], _, around, rfl, by simp, rfl, ?_, _,
    List.mem_of_getLast? (Node.getLast?_children offset tag content closer), rfl, ?_, rfl⟩
  · rcases hname with hname | hname
    · rw [hn] at hname
      cases hname
    · rw [Node.elementName?_concrete, ← hname, hn]
  · rw [closer.nameLeaf?_concrete, hn]

theorem Site.endsEarly_of_leaves {s : Site} {length : Nat} {name : Option Text} {next : Next}
    (hleaves : next.Leaves name) (h : FollowedBy s.around length s.here.stop next) :
    s.EndsEarly length := by
  cases next with
  | sibling => exact hleaves.elim
  | nothing => exact .inl h
  | endTag m =>
    cases m with
    | none => exact absurd rfl hleaves.1
    | some n => exact .inr ⟨n, h n rfl⟩

/-- An end tag that names no element around it is stray where it stands. -/
theorem Node.matched_strayEnd {around : List Placed} {tags : List StartTag}
    {next : Next} (hwithin : Within around tags) (length offset : Nat) {tag : EndTag}
    (hnested : (Node.strayEnd tag).Nested tags next) :
    ∀ s ∈ (Node.strayEnd tag).concrete.sites around offset, s.Matched length := by
  obtain ⟨elements, document, rfl, hkind, hnames⟩ := hwithin
  obtain ⟨inner, hinner, hplain⟩ := tag.sites_concrete
    (⟨offset, (Node.strayEnd tag).concrete⟩ :: (elements ++ [document])) offset
  have hwrapper : (Node.strayEnd tag).concrete.Plain := ⟨nofun, nofun⟩
  intro s hs
  rw [Node.sites_strayEnd] at hs
  rcases List.mem_cons.1 hs with rfl | hs
  · exact .of_plain hwrapper length
  rw [hinner] at hs
  rcases List.mem_cons.1 hs with rfl | hs
  · refine ⟨?_, fun _ _ => ⟨_, _, rfl, rfl, ?_, ?_⟩, fun h => ?_⟩
    · intro _ p hp helement
      -- Right above the tag is the error, which is not an element.
      cases hp
      cases helement
    · intro n hn a ha helement
      rw [tag.nameLeaf?_concrete] at hn
      rcases List.mem_append.1 ha with ha | ha
      · have hmem : a.tree.elementName? ∈ tags.map StartTag.name := by
          rw [← hnames]
          exact List.mem_map_of_mem ha
        obtain ⟨opener, hopener, hname⟩ := List.mem_map.1 hmem
        rw [← hname, ← hn]
        exact (hnested opener hopener).2.symm
      · rw [List.mem_singleton.1 ha, hkind] at helement
        cases helement
    · intro hnone
      rw [tag.nameLeaf?_concrete] at hnone
      cases tags with
      | nil =>
        rw [List.map_nil, List.map_eq_nil_iff] at hnames
        simp [hnames, hkind]
      | cons a tags => exact absurd hnone (hnested a List.mem_cons_self).1
    · rw [Concrete.isUnclosed_eq_false (by exact nofun)] at h
      cases h
  · exact .of_plain (hplain s hs) length

/-- An end tag that names its element, or nothing, closes it. -/
theorem EndTag.matched_closer (around : List Placed) (length offset : Nat) {tag : StartTag}
    (content : List Node) {closer : EndTag}
    (hname : closer.name = none ∨ closer.name = tag.name) :
    ∀ s ∈ closer.concrete.sites
      (⟨offset, (Node.element tag content (some closer)).concrete⟩ :: around)
      (offset + tag.text.width + Node.widthOfAll content), s.Matched length := by
  obtain ⟨inner, hinner, hplain⟩ := closer.sites_concrete
    (⟨offset, (Node.element tag content (some closer)).concrete⟩ :: around)
    (offset + tag.text.width + Node.widthOfAll content)
  rw [hinner, List.forall_mem_cons]
  refine ⟨⟨?_, fun _ hnot => absurd rfl (hnot _ rfl), fun h => ?_⟩,
    fun s hs => .of_plain (hplain s hs) length⟩
  · intro _ p hp _
    cases hp
    refine ⟨Node.getLast?_children offset tag content closer, ?_⟩
    rw [closer.nameLeaf?_concrete, Node.elementName?_concrete]
    exact hname
  · rw [Concrete.isUnclosed_eq_false (by exact nofun)] at h
    cases h

/-- Of the rules only the last one concerns an element. -/
theorem Site.Matched.of_element {here : Placed} {around : List Placed} {length : Nat} {n : Node}
    (hn : here.tree = n.concrete)
    (h : n.concrete.isUnclosed = true → (Site.mk here around).EndsEarly length) :
    (Site.mk here around).Matched length where
  closes hkind := absurd (hn ▸ hkind) n.kind_concrete_ne_endTag
  stray hkind := absurd (hn ▸ hkind) n.kind_concrete_ne_endTag
  early hunclosed := h (hn ▸ hunclosed)

mutual

/-- The rules hold at every site in a nested node. -/
theorem Node.matched {length : Nat} {around : List Placed} {tags : List StartTag} {next : Next}
    (hwithin : Within around tags) (offset : Nat) : ∀ n : Node, n.Nested tags next →
    FollowedBy around length (offset + n.width) next →
    ∀ s ∈ n.concrete.sites around offset, s.Matched length
  | .run kind t, _, _ => by
    have hplain := (Concrete.forall_sites around offset _).2 (Node.plain_concrete_run kind t)
    intro s hs
    exact .of_plain (hplain s hs) length
  | .strayEnd tag, hnested, _ => Node.matched_strayEnd hwithin length offset hnested
  | .element tag content (some closer), hnested, _ => by
    obtain ⟨hopens, hname, hcontent⟩ := hnested
    rw [Node.sites_element, List.forall_mem_cons, List.forall_mem_append, List.forall_mem_append]
    refine ⟨.of_element rfl fun h => ?_, fun s hs => .of_plain (StartTag.plain_of_mem_sites hs) length,
      ?_, EndTag.matched_closer around length offset content hname⟩
    · rw [Node.isUnclosed_concrete, Option.isNone_some, Bool.and_false] at h
      cases h
    · apply Node.matchedAll (hwithin.cons offset tag content (some closer)) _ content hcontent
      exact fun n hn => Site.ClosedAt.of_endTag around offset content hn hname
  | .element tag content none, hnested, hfollowed => by
    have hwidth : offset + (Node.element tag content none).width =
        offset + tag.text.width + Node.widthOfAll content := by
      simp [Node.width, Nat.add_assoc]
    rw [Node.Nested] at hnested
    rw [Node.sites_element, Node.endTagSites, List.append_nil, List.forall_mem_cons,
      List.forall_mem_append]
    refine ⟨.of_element rfl fun h => ?_, fun s hs => .of_plain (StartTag.plain_of_mem_sites hs) length,
      ?_⟩
    · rw [Node.isUnclosed_concrete, Bool.and_eq_true] at h
      -- An element that opens and has no end tag nests only where something ends it.
      rw [if_pos h.1] at hnested
      apply Site.endsEarly_of_leaves hnested.1
      rwa [Placed.stop, Node.width_concrete]
    · split at hnested
      · obtain ⟨hleaves, hcontent⟩ := hnested
        apply Node.matchedAll (hwithin.cons offset tag content none) _ content hcontent
        rw [hwidth] at hfollowed
        -- The content ends where the element does, and the element hides no end tag but its own.
        cases next with
        | sibling => trivial
        | nothing => exact hfollowed
        | endTag m =>
          intro n hn
          refine (hfollowed n hn).cons ?_
          rw [Node.elementName?_concrete, ← hn]
          exact hleaves.2.symm
      · rw [hnested, concreteOfAll, sitesOfAll]
        simp

theorem Node.matchedAll {length : Nat} {around : List Placed} {tags : List StartTag} {next : Next}
    (hwithin : Within around tags) (offset : Nat) : ∀ ns : List Node, NestedAll tags next ns →
    FollowedBy around length (offset + widthOfAll ns) next →
    ∀ s ∈ sitesOfAll around offset (concreteOfAll ns), s.Matched length
  | [], _, _ => by simp [concreteOfAll, sitesOfAll]
  | n :: ns, hnested, hfollowed => by
    rw [concreteOfAll, sitesOfAll, List.forall_mem_append, n.width_concrete]
    constructor
    · apply Node.matched hwithin offset n hnested.1
      cases ns with
      | nil => exact hfollowed
      | cons m ns => trivial
    · apply Node.matchedAll hwithin _ ns hnested.2
      rwa [Nat.add_assoc]

end

/-! ## Complaints about unclosed elements -/

/-- Whether the problem is that an element is not closed. -/
def Problem.isUnclosed : Problem → Bool
  | .unclosedElement _ => true
  | _ => false

/-- Whether the error is that an element is not closed. -/
def SyntaxError.isUnclosed (e : SyntaxError) : Bool := e.problem.isUnclosed

theorem SyntaxError.countP_when {problem : Problem} (h : problem.isUnclosed = false)
    (condition : Bool) (span : Span) :
    (SyntaxError.when condition problem span).countP isUnclosed = 0 := by
  cases condition with
  | false => rfl
  | true => simp [SyntaxError.when, isUnclosed, h]

theorem Attribute.countP_errors (seen : List Text) (offset : Nat) (a : Attribute) :
    (a.errors seen offset).countP SyntaxError.isUnclosed = 0 := by
  rw [errors, List.countP_append, List.countP_append, SyntaxError.countP_when rfl,
    SyntaxError.countP_when rfl]
  cases a.assignment with
  | absent => rfl
  | bare before => rfl
  | value before space quoted => rw [SyntaxError.countP_when rfl]

theorem TagItem.countP_errors (items : List TagItem) (seen : List Text) (offset : Nat) :
    (TagItem.errors seen offset items).countP SyntaxError.isUnclosed = 0 := by
  induction items generalizing seen offset with
  | nil => rfl
  | cons i items ih =>
    match i with
    | .attribute a => rw [errors, List.countP_append, a.countP_errors, ih]
    | .filler f => rw [errors, List.countP_append, SyntaxError.countP_when rfl, ih]

theorem StartTag.countP_errors (offset : Nat) (tag : StartTag) :
    (tag.errors offset).countP SyntaxError.isUnclosed = 0 := by
  rw [errors, List.countP_append, List.countP_append, TagItem.countP_errors,
    SyntaxError.countP_when rfl]
  cases tag.name with
  | none => rfl
  | some n => exact SyntaxError.countP_when rfl _ _

theorem Filler.countP_errors (fillers : List Filler) (offset : Nat) :
    (Filler.errors offset fillers).countP SyntaxError.isUnclosed = 0 := by
  induction fillers generalizing offset with
  | nil => rfl
  | cons f fillers ih => rw [errors, List.countP_append, SyntaxError.countP_when rfl, ih]

theorem EndTag.countP_errors (expected : Option Text) (offset : Nat) (tag : EndTag) :
    (tag.errors expected offset).countP SyntaxError.isUnclosed = 0 := by
  unfold errors
  rw [List.countP_append, List.countP_append, Filler.countP_errors, SyntaxError.countP_when rfl]
  split <;> rfl

theorem RunKind.countP_errors (kind : RunKind) (offset : Nat) (t : Text) :
    (kind.errors offset t).countP SyntaxError.isUnclosed = 0 :=
  SyntaxError.countP_when (by cases kind <;> rfl) _ _

/-- Whether the tree at a site is an element that lacks its end tag. -/
def Site.isUnclosed (s : Site) : Bool := s.here.tree.isUnclosed

theorem Site.countP_plain {ss : List Site} (h : ∀ s ∈ ss, s.here.tree.Plain) :
    ss.countP isUnclosed = 0 := by
  apply List.countP_eq_zero.2
  intro s hs
  rw [isUnclosed, Concrete.isUnclosed_eq_false (h s hs).1]
  exact Bool.false_ne_true

theorem EndTag.countP_sites (around : List Placed) (offset : Nat) (tag : EndTag) :
    (tag.concrete.sites around offset).countP Site.isUnclosed = 0 := by
  obtain ⟨inner, hinner, hplain⟩ := tag.sites_concrete around offset
  have hself : Site.isUnclosed ⟨⟨offset, tag.concrete⟩, around⟩ = false :=
    Concrete.isUnclosed_eq_false nofun
  rw [hinner, List.countP_cons, Site.countP_plain hplain, hself]
  rfl

mutual

theorem Node.countP_errors (length : Nat) (around : List Placed) (offset : Nat) : ∀ n : Node,
    (n.errors length offset).countP SyntaxError.isUnclosed =
      (n.concrete.sites around offset).countP Site.isUnclosed
  | .run kind t => by
    rw [errors, kind.countP_errors, Site.countP_plain]
    exact (Concrete.forall_sites around offset _).2 (Node.plain_concrete_run kind t)
  | .strayEnd tag => by
    have hself : Site.isUnclosed ⟨⟨offset, (Node.strayEnd tag).concrete⟩, around⟩ = false :=
      Concrete.isUnclosed_eq_false nofun
    rw [sites_strayEnd, List.countP_cons, tag.countP_sites, hself, errors, List.countP_append,
      tag.countP_errors]
    rfl
  | .element tag content endTag => by
    have hself : Site.isUnclosed ⟨⟨offset, (Node.element tag content endTag).concrete⟩, around⟩ =
        (tag.opens && endTag.isNone) := isUnclosed_concrete tag content endTag
    have hstart := Site.countP_plain fun s (hs : s ∈ tag.concrete.sites
      (⟨offset, (Node.element tag content endTag).concrete⟩ :: around) offset) =>
        StartTag.plain_of_mem_sites hs
    rw [sites_element, List.countP_cons, List.countP_append, List.countP_append, hself, hstart,
      ← Node.countP_errorsOfAll length]
    cases endTag with
    | some closer =>
      rw [errors, List.countP_append, List.countP_append, tag.countP_errors]
      simp [endTagSites, closer.countP_errors, closer.countP_sites]
    | none =>
      rw [errors, List.countP_append, List.countP_append, tag.countP_errors]
      cases hopens : tag.opens <;>
        simp [endTagSites, SyntaxError.when, SyntaxError.isUnclosed, Problem.isUnclosed]

theorem Node.countP_errorsOfAll (length : Nat) (around : List Placed) (offset : Nat) :
    ∀ ns : List Node, (errorsOfAll length offset ns).countP SyntaxError.isUnclosed =
      (sitesOfAll around offset (concreteOfAll ns)).countP Site.isUnclosed
  | [] => rfl
  | n :: ns => by
    rw [errorsOfAll, concreteOfAll, sitesOfAll, List.countP_append, List.countP_append,
      Node.countP_errors length around offset n, n.width_concrete,
      Node.countP_errorsOfAll length around _ ns]

end

/-- At the top of a document the same elements are complained about. -/
theorem Document.countP_topErrors (length : Nat) (ns : List Node) (roots offset : Nat) :
    (topErrors length roots offset ns).countP SyntaxError.isUnclosed =
      (Node.errorsOfAll length offset ns).countP SyntaxError.isUnclosed := by
  induction ns generalizing roots offset with
  | nil => exact SyntaxError.countP_when rfl _ _
  | cons n ns ih =>
    unfold topErrors
    rw [Node.errorsOfAll, List.countP_append, List.countP_append, ih]
    congr 1
    split
    · rw [List.countP_append, SyntaxError.countP_when rfl, Nat.add_zero]
    · rw [Node.errors, RunKind.countP_errors]
      rfl
    · rfl

/-! ## Documents -/

/-- The sites in a document of nodes: itself, and those in its nodes. -/
theorem Document.sites_markup (nodes : List Node) :
    (Document.markup nodes).sites = ⟨⟨0, (Document.markup nodes).concrete⟩, []⟩ ::
      sitesOfAll [⟨0, (Document.markup nodes).concrete⟩] 0 (Node.concreteOfAll nodes) := rfl

theorem Document.matched_parse (t : Text) : ∀ s ∈ (parse t).sites, s.Matched t.width := by
  unfold parse
  split
  · intro s hs
    exact .of_plain ((Concrete.forall_sites [] 0 _).2 (plain_binary t) s hs) t.width
  · have hdocument : (Document.markup (Node.ofPieces (Piece.ofText t))).concrete.Plain :=
      ⟨nofun, nofun⟩
    rw [sites_markup, List.forall_mem_cons]
    refine ⟨.of_plain hdocument t.width, ?_⟩
    refine Node.matchedAll ⟨[], _, rfl, rfl, rfl⟩ 0 _ (Node.nestedAll_ofPieces _) ?_
    rw [FollowedBy, Nat.zero_add, Node.widthOfAll_eq, Node.textOfAll_ofPieces_ofText]

theorem Document.countP_errors (d : Document) :
    d.errors.countP SyntaxError.isUnclosed = d.sites.countP Site.isUnclosed := by
  cases d with
  | binary t =>
    rw [sites, Site.countP_plain ((Concrete.forall_sites [] 0 _).2 (plain_binary t))]
    rfl
  | markup nodes =>
    have hself : Site.isUnclosed ⟨⟨0, (Document.markup nodes).concrete⟩, []⟩ = false :=
      Concrete.isUnclosed_eq_false nofun
    rw [sites_markup, errors, countP_topErrors, List.countP_cons, hself,
      ← Node.countP_errorsOfAll (Node.widthOfAll nodes)]
    rfl

/-- **The end tags of every text.** An end tag in an element closes it, every other end tag is set
apart, an element without an end tag gives way to one of an element around it, and there are as many
complaints about unclosed elements as there are such elements. -/
theorem Document.endTags_match (t : Text) :
    (∀ s ∈ (parse t).sites, s.here.tree.kind = .inr .endTag →
      ∀ p ∈ s.around.head?, p.tree.kind = .inr .element → s.Closes p) ∧
    (∀ s ∈ (parse t).sites, s.here.tree.kind = .inr .endTag →
      (∀ p ∈ s.around.head?, p.tree.kind ≠ .inr .element) → s.IsStray) ∧
    (∀ s ∈ (parse t).sites, s.isUnclosed = true → s.EndsEarly t.width) ∧
    (parse t).errors.countP SyntaxError.isUnclosed = (parse t).sites.countP Site.isUnclosed := by
  have hmatched := matched_parse t
  refine ⟨?_, ?_, ?_, countP_errors _⟩
  · exact fun s hs => (hmatched s hs).closes
  · exact fun s hs => (hmatched s hs).stray
  · exact fun s hs => (hmatched s hs).early

end ProjectFile.Markup
