import ProjectFile.Markup.Problem
import ProjectFile.Proofs.Markup.Elements
import ProjectFile.Proofs.Markup.Nesting

/-!
A text has no errors exactly when its tree and its elements are well formed.

The errors are recorded while the nodes are walked, with offsets and with the names seen so far.
`Document.WellFormed` says the same of the finished document, without walking it: what its tree
holds, and what every element of its view answers. The two agree on every text.

In between stands `Node.Flawless`, which drops the offsets from the errors of a node
(`Node.errors_eq_nil_iff`, for nodes that follow the rules of nesting) and is then read off the
node's tree and views (`Node.flawless_iff`).
-/

namespace ProjectFile.Markup

open Concrete (Forall ForallOfAll)

/-! ## Well-formed documents -/

/-- Whether a tree is neither an error nor a token that has no business where it stands. -/
def Concrete.IsClean (c : Concrete) : Prop := c.kind ≠ .inr .error ∧ c.kind ≠ .inl .junk

/-- Whether a tree that should end with a terminator does, and is long enough for its opener not to
overlap it. -/
def Concrete.IsComplete (c : Concrete) : Prop :=
  match c.kind with
  | .inr (.run .comment) => 7 ≤ c.width ∧ ['-', '-', '>'] <:+ c.text
  | .inr (.run .cdata) => 12 ≤ c.width ∧ [']', ']', '>'] <:+ c.text
  | .inr (.run .instruction) => 4 ≤ c.width ∧ ['?', '>'] <:+ c.text
  | _ => True

/-- Whether a document is well formed, read off its tree and its elements. -/
structure Document.WellFormed (d : Document) : Prop where
  oneRoot : d.concrete.children.countP (fun c => decide (c.kind = .inr .element)) = 1
  noText : ∀ c ∈ d.concrete.children, c.kind ≠ .inr (.run .text)
  clean : ∀ s ∈ d.sites, s.here.tree.IsClean
  valid : ∀ e ∈ d.elements, e.isValid = true ∧ Text.isName e.name = true
  distinct : ∀ e ∈ d.elements, (e.attributes.map PlacedAttribute.name).Nodup
  complete : ∀ s ∈ d.sites, s.here.tree.IsComplete

/-! ## Tags without errors -/

theorem SyntaxError.when_eq_nil {condition : Bool} {problem : Problem} {span : Span} :
    SyntaxError.when condition problem span = [] ↔ condition = false := by
  cases condition <;> simp [SyntaxError.when]

theorem Attribute.errors_eq_nil_iff {seen : List Text} {offset : Nat} {a : Attribute} :
    a.errors seen offset = [] ↔ a.isValid = true ∧ a.name ∉ seen := by
  cases hassignment : a.assignment with
  | absent => simp [errors, isValid, isClosed, hassignment]
  | bare before => simp [errors, isValid, isClosed, hassignment]
  | value before space quoted =>
    simp only [errors, isValid, isClosed, hassignment, List.append_eq_nil_iff,
      SyntaxError.when_eq_nil, Bool.not_eq_false', Bool.and_eq_true, List.contains_eq_mem,
      decide_eq_false_iff_not]
    exact and_right_comm

/-- Whether the items of a start tag are well formed after attributes of the names `seen`. -/
structure TagItem.AllSound (seen : List Text) (items : List TagItem) : Prop where
  notJunk : ∀ i ∈ items, i.isJunk = false
  valid : ∀ a ∈ attributes items, a.isValid = true
  distinct : ((attributes items).map Attribute.name).Nodup
  unseen : ∀ a ∈ attributes items, a.name ∉ seen

theorem TagItem.allSound_attribute {seen : List Text} {a : Attribute} {items : List TagItem} :
    AllSound seen (.attribute a :: items) ↔
      (a.isValid = true ∧ a.name ∉ seen) ∧ AllSound (a.name :: seen) items := by
  have hattributes : attributes (.attribute a :: items) = a :: attributes items := rfl
  constructor
  · intro h
    obtain ⟨hjunk, hvalid, hdistinct, hunseen⟩ := h
    rw [hattributes] at hvalid hdistinct hunseen
    rw [List.forall_mem_cons] at hjunk hvalid hunseen
    rw [List.map_cons, List.nodup_cons] at hdistinct
    refine ⟨⟨hvalid.1, hunseen.1⟩, hjunk.2, hvalid.2, hdistinct.2, fun b hb hmem => ?_⟩
    rcases List.mem_cons.1 hmem with heq | hseen
    · exact hdistinct.1 (heq ▸ List.mem_map_of_mem hb)
    · exact hunseen.2 b hb hseen
  · intro h
    obtain ⟨⟨hvalid, hseen⟩, hrest⟩ := h
    refine ⟨List.forall_mem_cons.2 ⟨rfl, hrest.notJunk⟩, ?_, ?_, ?_⟩
    · rw [hattributes]
      exact List.forall_mem_cons.2 ⟨hvalid, hrest.valid⟩
    · rw [hattributes, List.map_cons, List.nodup_cons]
      refine ⟨fun hmem => ?_, hrest.distinct⟩
      obtain ⟨b, hb, heq⟩ := List.mem_map.1 hmem
      exact hrest.unseen b hb (heq ▸ List.mem_cons_self)
    · rw [hattributes]
      refine List.forall_mem_cons.2 ⟨hseen, fun b hb hmem => ?_⟩
      exact hrest.unseen b hb (List.mem_cons_of_mem _ hmem)

theorem TagItem.allSound_filler {seen : List Text} {f : Filler} {items : List TagItem} :
    AllSound seen (.filler f :: items) ↔ f.isJunk = false ∧ AllSound seen items := by
  constructor
  · intro h
    obtain ⟨hjunk, hvalid, hdistinct, hunseen⟩ := h
    rw [List.forall_mem_cons] at hjunk
    exact ⟨hjunk.1, hjunk.2, hvalid, hdistinct, hunseen⟩
  · intro h
    obtain ⟨hjunk, hrest⟩ := h
    exact ⟨List.forall_mem_cons.2 ⟨hjunk, hrest.notJunk⟩, hrest.valid, hrest.distinct, hrest.unseen⟩

theorem TagItem.errors_eq_nil_iff {seen : List Text} {offset : Nat} {items : List TagItem} :
    TagItem.errors seen offset items = [] ↔ AllSound seen items := by
  induction items generalizing seen offset with
  | nil => exact ⟨fun _ => ⟨nofun, nofun, List.nodup_nil, nofun⟩, fun _ => rfl⟩
  | cons i items ih =>
    match i with
    | .attribute a =>
      rw [TagItem.errors, List.append_eq_nil_iff, Attribute.errors_eq_nil_iff, ih,
        allSound_attribute]
    | .filler f =>
      rw [TagItem.errors, List.append_eq_nil_iff, SyntaxError.when_eq_nil, ih, allSound_filler]

/-- Whether a start tag is well formed. -/
structure StartTag.Sound (tag : StartTag) : Prop where
  name : ∃ n, tag.name = some n ∧ Text.isName n = true
  items : TagItem.AllSound [] tag.items
  ending : tag.ending ≠ .missing

theorem StartTag.errors_eq_nil_iff {offset : Nat} {tag : StartTag} :
    tag.errors offset = [] ↔ tag.Sound := by
  rw [errors, List.append_eq_nil_iff, List.append_eq_nil_iff, TagItem.errors_eq_nil_iff,
    SyntaxError.when_eq_nil, beq_eq_false_iff_ne]
  constructor
  · intro h
    obtain ⟨⟨hname, hitems⟩, hending⟩ := h
    refine ⟨?_, hitems, hending⟩
    cases hn : tag.name with
    | none => simp [hn] at hname
    | some n => exact ⟨n, rfl, by simpa [hn, SyntaxError.when_eq_nil] using hname⟩
  · intro h
    obtain ⟨⟨n, hn, hname⟩, hitems, hending⟩ := h
    refine ⟨⟨?_, hitems⟩, hending⟩
    rw [hn]
    exact SyntaxError.when_eq_nil.2 (by rw [hname]; rfl)

theorem Filler.errors_eq_nil_iff {offset : Nat} {fillers : List Filler} :
    Filler.errors offset fillers = [] ↔ ∀ f ∈ fillers, f.isJunk = false := by
  induction fillers generalizing offset with
  | nil => simp [Filler.errors]
  | cons f fillers ih =>
    rw [Filler.errors, List.append_eq_nil_iff, SyntaxError.when_eq_nil, ih, List.forall_mem_cons]

theorem EndTag.errors_eq_nil_iff {name : Text} {offset : Nat} {tag : EndTag} :
    tag.errors (some name) offset = [] ↔
      tag.name ≠ none ∧ (∀ f ∈ tag.fillers, f.isJunk = false) ∧ tag.closed = true := by
  cases hname : tag.name with
  | none => simp [errors, hname]
  | some n => simp [errors, hname, Filler.errors_eq_nil_iff, SyntaxError.when_eq_nil]

theorem RunKind.errors_eq_nil_iff {kind : RunKind} {offset : Nat} {t : Text} :
    kind.errors offset t = [] ↔ kind.isTerminated t = true := by
  unfold errors
  exact SyntaxError.when_eq_nil.trans (by simp)

/-! ## Nodes without errors -/

/-- Whether an element with the given tags is well formed, whatever its content. -/
structure Element.Sound (e : Element) : Prop where
  valid : e.isValid = true
  name : Text.isName e.name = true
  distinct : (e.attributes.map PlacedAttribute.name).Nodup

theorem Element.isValid_iff {e : Element} :
    e.isValid = true ↔ e.tag.name.isSome = true ∧ (∀ i ∈ e.tag.items, i.isJunk = false) ∧
      (∀ a ∈ e.tag.attributes, a.isValid = true) ∧
      (e.tag.ending = .selfClosed ∨ ∃ closer, e.endTag = some closer ∧ closer.closed = true ∧
        closer.name.isSome = true ∧ closer.name = e.tag.name) := by
  cases hend : e.endTag <;> simp [isValid, isSelfClosing, hend, and_assoc]

theorem Element.map_name_attributes (e : Element) :
    e.attributes.map PlacedAttribute.name =
      (TagItem.attributes e.tag.items).map Attribute.name := by
  rw [← e.map_attr_attributes, List.map_map]
  rfl

/-- An element is well formed if its start tag is and if it has an end tag that names it, unless
its start tag is the whole element. -/
theorem Element.sound_iff {e : Element} :
    e.Sound ↔ (∃ n, e.tag.name = some n ∧ Text.isName n = true) ∧
      TagItem.AllSound [] e.tag.items ∧
      (e.tag.ending = .selfClosed ∨
        ∃ closer, e.endTag = some closer ∧ closer.closed = true ∧ closer.name = e.tag.name) := by
  constructor
  · intro h
    obtain ⟨hvalid, hname, hdistinct⟩ := h
    obtain ⟨hsome, hjunk, hattributes, hclosed⟩ := isValid_iff.1 hvalid
    obtain ⟨n, hn⟩ := Option.isSome_iff_exists.1 hsome
    rw [map_name_attributes] at hdistinct
    refine ⟨⟨n, hn, ?_⟩, ⟨hjunk, hattributes, hdistinct, fun _ _ => List.not_mem_nil⟩, ?_⟩
    · rwa [Element.name, hn] at hname
    · refine hclosed.imp_right fun ⟨closer, hcloser, hclosed, _, heq⟩ => ?_
      exact ⟨closer, hcloser, hclosed, heq⟩
  · intro h
    obtain ⟨⟨n, hn, hname⟩, hitems, hclosed⟩ := h
    refine ⟨isValid_iff.2 ⟨by rw [hn]; rfl, hitems.notJunk, hitems.valid, ?_⟩, ?_, ?_⟩
    · refine hclosed.imp_right fun ⟨closer, hcloser, hclosed, heq⟩ => ?_
      exact ⟨closer, hcloser, hclosed, by rw [heq, hn]; rfl, heq⟩
    · rwa [Element.name, hn]
    · rw [map_name_attributes]
      exact hitems.distinct

namespace Node

mutual

/-- Whether a node has no errors, wherever it stands. -/
def Flawless : Node → Prop
  | .element tag content endTag =>
    Element.Sound ⟨0, tag, content, endTag⟩ ∧
      (∀ closer ∈ endTag, ∀ f ∈ closer.fillers, f.isJunk = false) ∧ FlawlessAll content
  | .strayEnd _ => False
  | .run kind t => kind.isTerminated t = true

/-- Whether nodes have no errors. -/
def FlawlessAll : List Node → Prop
  | [] => True
  | n :: ns => n.Flawless ∧ FlawlessAll ns

end

/-- An element that nothing closes has no errors if it needs no end tag. -/
theorem errors_unclosed_eq_nil_iff {length offset : Nat} {tag : StartTag} {content : List Node} :
    (Node.element tag content none).errors length offset = [] ↔
      Element.Sound ⟨0, tag, content, none⟩ ∧
        errorsOfAll length (offset + tag.text.width) content = [] := by
  unfold errors
  rw [List.append_eq_nil_iff, List.append_eq_nil_iff, StartTag.errors_eq_nil_iff,
    SyntaxError.when_eq_nil, Element.sound_iff]
  constructor
  · intro h
    obtain ⟨⟨⟨⟨n, hn, hname⟩, hitems, hending⟩, hcontent⟩, hopens⟩ := h
    refine ⟨⟨⟨n, hn, hname⟩, hitems, .inl ?_⟩, hcontent⟩
    cases hkind : tag.ending with
    | content => simp [StartTag.opens, hn, hkind] at hopens
    | selfClosed => rfl
    | missing => exact absurd hkind hending
  · intro h
    obtain ⟨⟨hname, hitems, hclosed⟩, hcontent⟩ := h
    have hending : tag.ending = .selfClosed := hclosed.resolve_right (by simp)
    refine ⟨⟨⟨hname, hitems, ?_⟩, hcontent⟩, ?_⟩
    · rw [hending]
      nofun
    · simp [StartTag.opens, hending]

/-- An element that an end tag closes has no errors if the end tag names it. -/
theorem errors_closed_eq_nil_iff {length offset : Nat} {tag : StartTag} {content : List Node}
    {closer : EndTag} (hopens : tag.opens = true)
    (hname : closer.name = none ∨ closer.name = tag.name) :
    (Node.element tag content (some closer)).errors length offset = [] ↔
      Element.Sound ⟨0, tag, content, some closer⟩ ∧ (∀ f ∈ closer.fillers, f.isJunk = false) ∧
        errorsOfAll length (offset + tag.text.width) content = [] := by
  rw [StartTag.opens, Bool.and_eq_true, beq_iff_eq] at hopens
  obtain ⟨n, hn⟩ := Option.isSome_iff_exists.1 hopens.1
  unfold errors
  rw [List.append_eq_nil_iff, List.append_eq_nil_iff, StartTag.errors_eq_nil_iff, hn,
    EndTag.errors_eq_nil_iff, Element.sound_iff]
  -- An end tag without a name closes the element too, but that is an error.
  constructor
  · intro h
    obtain ⟨⟨⟨hsound, hitems, -⟩, hcontent⟩, hnamed, hfillers, hclosed⟩ := h
    refine ⟨⟨hsound, hitems, .inr ⟨closer, rfl, hclosed, ?_⟩⟩, hfillers, hcontent⟩
    exact hname.resolve_left hnamed
  · intro h
    obtain ⟨⟨hsound, hitems, hclosed⟩, hfillers, hcontent⟩ := h
    have hending : tag.ending ≠ .selfClosed := by
      rw [hopens.2]
      nofun
    obtain ⟨_, hcloser, hclosed, heq⟩ := hclosed.resolve_left hending
    cases hcloser
    refine ⟨⟨⟨hsound, hitems, ?_⟩, hcontent⟩, ?_, hfillers, hclosed⟩
    · rw [hopens.2]
      nofun
    · rw [heq, hn]
      nofun

mutual

/-- A node that follows the rules of nesting has no errors if it is flawless. -/
theorem errors_eq_nil_iff {around : List StartTag} {next : Next} (length offset : Nat) :
    ∀ n : Node, n.Nested around next → (n.errors length offset = [] ↔ n.Flawless)
  | .run kind t, _ => by
    rw [errors, RunKind.errors_eq_nil_iff, Flawless]
  | .strayEnd tag, _ => by
    simp [errors, Flawless]
  | .element tag content none, hnested => by
    rw [errors_unclosed_eq_nil_iff, Flawless]
    -- An element that is not opened has no content.
    by_cases hopens : tag.opens = true
    · rw [Nested, if_pos hopens] at hnested
      rw [errorsOfAll_eq_nil_iff length _ content hnested.2]
      simp
    · rw [Nested, if_neg hopens] at hnested
      subst hnested
      simp [errorsOfAll, FlawlessAll]
  | .element tag content (some closer), hnested => by
    obtain ⟨hopens, hname, hcontent⟩ := hnested
    rw [errors_closed_eq_nil_iff hopens hname, errorsOfAll_eq_nil_iff length _ content hcontent,
      Flawless]
    simp

theorem errorsOfAll_eq_nil_iff {around : List StartTag} {next : Next} (length offset : Nat) :
    ∀ ns : List Node, NestedAll around next ns → (errorsOfAll length offset ns = [] ↔ FlawlessAll ns)
  | [], _ => by simp [errorsOfAll, FlawlessAll]
  | n :: ns, hnested => by
    rw [errorsOfAll, List.append_eq_nil_iff, FlawlessAll, errors_eq_nil_iff length offset n hnested.1,
      errorsOfAll_eq_nil_iff length _ ns hnested.2]

end

end Node

/-! ## Flawless nodes and their trees -/

/-- Whether a tree may stand in a document without errors. -/
def Concrete.IsSound (c : Concrete) : Prop := c.IsClean ∧ c.IsComplete

namespace Concrete

theorem isSound_leaf {kind : LeafKind} {t : Text} : (leaf kind t).IsSound ↔ kind ≠ .junk := by
  simp [IsSound, IsClean, IsComplete, Concrete.kind]

theorem holdsInTags_isSound : HoldsInTags IsSound where
  leaf kind t hkind := isSound_leaf.2 hkind
  branch kind children hkind := by
    obtain rfl | rfl | rfl := hkind <;> exact ⟨⟨nofun, nofun⟩, trivial⟩

end Concrete

open Concrete (isSound_leaf holdsInTags_isSound)

/-- Junk in a tag shows as an error. -/
theorem Filler.not_isSound_concrete {f : Filler} (h : f.isJunk = true) :
    ¬ f.concrete.Forall Concrete.IsSound := by
  cases f with
  | space t => cases h
  | junk t => exact fun hsound => hsound.1.1.1 rfl

theorem StartTag.isSound_concrete {tag : StartTag} :
    tag.concrete.Forall Concrete.IsSound ↔ ∀ i ∈ tag.items, i.isJunk = false := by
  rw [StartTag.forall_concrete holdsInTags_isSound]
  apply forall₂_congr
  intro i _
  match i with
  | .attribute a => exact iff_of_true nofun rfl
  | .filler f =>
    rw [← Bool.not_eq_true]
    exact ⟨fun h hjunk => f.not_isSound_concrete hjunk (h hjunk), fun h hjunk => absurd hjunk h⟩

theorem EndTag.isSound_concrete {tag : EndTag} :
    tag.concrete.Forall Concrete.IsSound ↔ ∀ f ∈ tag.fillers, f.isJunk = false := by
  have hself : tag.concrete.IsSound := ⟨⟨nofun, nofun⟩, trivial⟩
  have hchildren : tag.concrete.Forall Concrete.IsSound ↔
      ForallOfAll Concrete.IsSound tag.concrete.children := and_iff_right hself
  rw [hchildren, EndTag.forall_children holdsInTags_isSound]
  apply forall₂_congr
  intro f _
  rw [← Bool.not_eq_true]
  exact ⟨fun h hjunk => f.not_isSound_concrete hjunk (h hjunk), fun h hjunk => absurd hjunk h⟩

theorem RunKind.isSound_concrete {kind : RunKind} {t : Text} :
    (Node.run kind t).concrete.Forall Concrete.IsSound ↔ kind.isTerminated t = true := by
  have hleaf : (Concrete.leaf kind.leaf t).IsSound := by
    apply isSound_leaf.2
    cases kind <;> nofun
  have hbranch : (Node.run kind t).concrete.IsSound ↔ kind.isTerminated t = true := by
    cases kind <;> simp [Node.concrete, Concrete.IsSound, Concrete.IsClean, Concrete.IsComplete,
      Concrete.kind, isTerminated, Concrete.width, Concrete.widthOfAll, Concrete.text,
      Concrete.textOfAll]
  rw [← hbranch]
  exact ⟨fun h => h.1, fun h => ⟨h, hleaf, trivial⟩⟩

/-! ## Flawless nodes and their elements -/

/-- Where an element stands does not make it well formed or not. -/
theorem Element.sound_start (offset : Nat) {tag : StartTag} {content : List Node}
    {endTag : Option EndTag} :
    Sound ⟨0, tag, content, endTag⟩ ↔ Sound ⟨offset, tag, content, endTag⟩ := by
  rw [sound_iff, sound_iff]

namespace Node

theorem isSound_concrete_element {tag : StartTag} {content : List Node} {endTag : Option EndTag} :
    (Node.element tag content endTag).concrete.Forall Concrete.IsSound ↔
      (∀ i ∈ tag.items, i.isJunk = false) ∧ ForallOfAll Concrete.IsSound (concreteOfAll content) ∧
        ∀ closer ∈ endTag, ∀ f ∈ closer.fillers, f.isJunk = false := by
  have hself : (Node.element tag content endTag).concrete.IsSound := ⟨⟨nofun, nofun⟩, trivial⟩
  have hchildren : (Node.element tag content endTag).concrete.Forall Concrete.IsSound ↔
      tag.concrete.Forall Concrete.IsSound ∧ ForallOfAll Concrete.IsSound
        (concreteOfAll content ++ (endTag.map EndTag.concrete).toList) := and_iff_right hself
  rw [hchildren, StartTag.isSound_concrete, Concrete.forallOfAll_append]
  refine and_congr_right' (and_congr_right' ?_)
  cases endTag with
  | none => exact iff_of_true trivial nofun
  | some closer =>
    have hcloser : ForallOfAll Concrete.IsSound [closer.concrete] ↔
        closer.concrete.Forall Concrete.IsSound := and_iff_left trivial
    simpa [EndTag.isSound_concrete] using hcloser

mutual

/-- **A node is flawless if no tree in it shows an error and every element in it is well formed.** -/
theorem flawless_iff (enclosing : List Enclosure) (before after : List Item) (offset : Nat) :
    ∀ n : Node, n.Flawless ↔ n.concrete.Forall Concrete.IsSound ∧
      ∀ e ∈ View.elements (n.views enclosing before after offset), e.Sound
  | .run kind t => by
    rw [Flawless, RunKind.isSound_concrete, elements_views_run]
    simp
  | .strayEnd tag => by
    apply iff_of_false id
    intro h
    exact h.1.1.1.1 rfl
  | .element tag content endTag => by
    let e : Element := ⟨offset, tag, content, endTag⟩
    rw [Flawless, isSound_concrete_element, elements_views_element, List.forall_mem_cons,
      flawlessAll_iff (⟨e, before, after⟩ :: enclosing) [] e.children e.startTagSpan.stop content,
      Element.sound_start offset]
    constructor
    · intro h
      obtain ⟨hsound, hfillers, htrees, helements⟩ := h
      exact ⟨⟨(Element.sound_iff.1 hsound).2.1.notJunk, htrees, hfillers⟩, hsound, helements⟩
    · intro h
      obtain ⟨⟨-, htrees, hfillers⟩, hsound, helements⟩ := h
      exact ⟨hsound, hfillers, htrees, helements⟩

theorem flawlessAll_iff (enclosing : List Enclosure) (before items : List Item) (offset : Nat) :
    ∀ ns : List Node, FlawlessAll ns ↔ ForallOfAll Concrete.IsSound (concreteOfAll ns) ∧
      ∀ e ∈ View.elements (viewsOfAll enclosing before items offset ns), e.Sound
  | [] => iff_of_true trivial ⟨trivial, nofun⟩
  | n :: ns => by
    rw [FlawlessAll, concreteOfAll, ForallOfAll, viewsOfAll, View.elements_append,
      List.forall_mem_append, ← and_and_and_comm, flawless_iff, flawlessAll_iff]

end

end Node

/-! ## Documents -/

namespace Document

/-- The errors of a node at the top of a document, after `roots` elements. -/
theorem topErrors_cons_eq_nil_iff {length roots offset : Nat} {n : Node} {ns : List Node} :
    topErrors length roots offset (n :: ns) = [] ↔
      (n.errors length offset = [] ∧ n.concrete.kind ≠ .inr (.run .text) ∧
        (n.isElement = true → roots ≠ 1)) ∧
      topErrors length (if n.isElement then roots + 1 else roots) (offset + n.width) ns = [] := by
  rw [topErrors.eq_def, List.append_eq_nil_iff]
  apply and_congr_left
  intro _
  match n with
  | .element tag content endTag =>
    simp [SyntaxError.when_eq_nil, Node.concrete, Concrete.kind, Node.isElement]
  | .strayEnd tag => simp [Node.concrete, Concrete.kind, Node.isElement]
  | .run kind t => cases kind <;> simp [Node.concrete, Concrete.kind, Node.isElement]

/-- Nodes make up a document without errors if they are flawless, none of them is text, and one of
them is an element. -/
theorem topErrors_eq_nil_iff {length : Nat} {ns : List Node} {roots offset : Nat}
    (hroots : roots ≤ 1) (hnested : Node.NestedAll [] .nothing ns) :
    topErrors length roots offset ns = [] ↔ Node.FlawlessAll ns ∧
      (∀ n ∈ ns, n.concrete.kind ≠ .inr (.run .text)) ∧ roots + ns.countP Node.isElement = 1 := by
  induction ns generalizing roots offset with
  | nil =>
    rw [topErrors, SyntaxError.when_eq_nil, beq_eq_false_iff_ne]
    simp [Node.FlawlessAll]
    omega
  | cons n ns ih =>
    rw [topErrors_cons_eq_nil_iff, Node.errors_eq_nil_iff length offset n hnested.1,
      Node.FlawlessAll, List.forall_mem_cons, List.countP_cons]
    by_cases helement : n.isElement = true
    · simp only [helement, if_true, forall_const]
      -- A second element is an error of its own, so what follows it does not matter.
      by_cases hone : roots = 1
      · apply iff_of_false (fun h => h.1.2.2 hone)
        intro h
        omega
      · rw [ih (by omega) hnested.2]
        constructor
        · intro h
          obtain ⟨⟨hn, htext, -⟩, hns, htexts, hcount⟩ := h
          exact ⟨⟨hn, hns⟩, ⟨htext, htexts⟩, by omega⟩
        · intro h
          obtain ⟨⟨hn, hns⟩, ⟨htext, htexts⟩, hcount⟩ := h
          exact ⟨⟨hn, htext, hone⟩, hns, htexts, by omega⟩
    · rw [Bool.not_eq_true] at helement
      simp only [helement, Bool.false_eq_true, if_false, false_implies, and_true, Nat.add_zero]
      rw [ih hroots hnested.2]
      constructor
      · intro h
        obtain ⟨⟨hn, htext⟩, hns, htexts, hcount⟩ := h
        exact ⟨⟨hn, hns⟩, ⟨htext, htexts⟩, hcount⟩
      · intro h
        obtain ⟨⟨hn, hns⟩, ⟨htext, htexts⟩, hcount⟩ := h
        exact ⟨⟨hn, htext⟩, hns, htexts, hcount⟩

theorem countP_concreteOfAll (ns : List Node) :
    (Node.concreteOfAll ns).countP (fun c => decide (c.kind = .inr .element)) =
      ns.countP Node.isElement := by
  induction ns with
  | nil => rfl
  | cons n ns ih =>
    have hkind : decide (n.concrete.kind = .inr .element) = n.isElement := by
      cases n <;> rfl
    rw [Node.concreteOfAll, List.countP_cons, List.countP_cons, ih, hkind]

theorem wellFormed_iff {d : Document} : d.WellFormed ↔
    (d.concrete.Forall Concrete.IsSound ∧ ∀ e ∈ d.elements, e.Sound) ∧
      (∀ c ∈ d.concrete.children, c.kind ≠ .inr (.run .text)) ∧
      d.concrete.children.countP (fun c => decide (c.kind = .inr .element)) = 1 := by
  rw [← Concrete.forall_sites [] 0]
  constructor
  · intro h
    refine ⟨⟨fun s hs => ⟨h.clean s hs, h.complete s hs⟩, fun e he => ?_⟩, h.noText, h.oneRoot⟩
    exact ⟨(h.valid e he).1, (h.valid e he).2, h.distinct e he⟩
  · intro h
    obtain ⟨⟨htrees, helements⟩, htext, hcount⟩ := h
    exact {
      oneRoot := hcount
      noText := htext
      clean := fun s hs => (htrees s hs).1
      valid := fun e he => ⟨(helements e he).valid, (helements e he).name⟩
      distinct := fun e he => (helements e he).distinct
      complete := fun s hs => (htrees s hs).2 }

theorem wellFormed_markup_iff {nodes : List Node} :
    (Document.markup nodes).WellFormed ↔ Node.FlawlessAll nodes ∧
      (∀ n ∈ nodes, n.concrete.kind ≠ .inr (.run .text)) ∧ nodes.countP Node.isElement = 1 := by
  have htrees : (Document.markup nodes).concrete.Forall Concrete.IsSound ↔
      ForallOfAll Concrete.IsSound (Node.concreteOfAll nodes) :=
    and_iff_right ⟨⟨nofun, nofun⟩, trivial⟩
  have htexts : (∀ c ∈ Node.concreteOfAll nodes, c.kind ≠ .inr (.run .text)) ↔
      ∀ n ∈ nodes, n.concrete.kind ≠ .inr (.run .text) := by
    simp only [Node.mem_concreteOfAll, forall_exists_index, and_imp, forall_apply_eq_imp_iff₂]
  have hflawless := Node.flawlessAll_iff [] [] (Document.markup nodes).children 0 nodes
  rw [wellFormed_iff, htrees, hflawless, ← htexts, ← countP_concreteOfAll]
  rfl

/-- **A text has no errors exactly when its document is well formed.** -/
theorem errors_eq_nil_iff_wellFormed (t : Text) : (parse t).errors = [] ↔ (parse t).WellFormed := by
  unfold parse
  split
  · apply iff_of_false nofun
    intro h
    have hcount := h.oneRoot
    simp only [concrete, Concrete.children] at hcount
    unfold Concrete.leafUnlessEmpty at hcount
    split at hcount <;> simp [Concrete.kind] at hcount
  · rw [errors, topErrors_eq_nil_iff (Nat.zero_le 1) (Node.nestedAll_ofPieces _),
      wellFormed_markup_iff, Nat.zero_add]

end Document

end ProjectFile.Markup
