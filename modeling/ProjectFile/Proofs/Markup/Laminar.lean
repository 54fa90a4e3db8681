import Mathlib.Data.List.Pairwise
import ProjectFile.Proofs.Markup.Elements
import ProjectFile.Proofs.Markup.Openers

/-!
The innermost element around a token.

The elements of a document nest: in document order each of them lies behind those before it, or
inside them (`Document.nest_elements`). So the last one around a token is the innermost
(`Span.within_of_last`), and that is the one that the token belongs to (`Document.belongs_leaves`).
Both are shown along the nodes, with what is in a node between its ends.

At an offset the token counts that holds the byte there, and at the end of the document the last
one (`Document.TokenAt`): of two tokens that meet, it is the right one (`Document.tokenAt_iff`).
-/

namespace ProjectFile

namespace Span

/-! ## Spans that nest -/

/-- Whether a span lies behind another or inside it. -/
def Follows (s before : Span) : Prop := before.stop ≤ s.start ∨ s.Within before

/-- **Of spans that follow those before them, the last one around a byte is the innermost.** -/
theorem within_of_last {α : Type} {f : α → Span} {xs : List α}
    (hxs : xs.Pairwise fun x y => (f y).Follows (f x)) {s : Span} (hs : s.start < s.stop) {x : α}
    (hx : (xs.filter fun y => decide (s.Within (f y))).getLast? = some x) :
    x ∈ xs ∧ s.Within (f x) ∧ ∀ y ∈ xs, s.Within (f y) → (f x).Within (f y) := by
  obtain ⟨front, hfront⟩ := List.getLast?_eq_some_iff.1 hx
  have hall : ∀ y, y ∈ front ++ [x] ↔ y ∈ xs ∧ s.Within (f y) := by
    intro y
    rw [← hfront, List.mem_filter, decide_eq_true_eq]
  obtain ⟨hmem, hin⟩ := (hall x).1 (List.mem_append_right _ (List.mem_singleton.2 rfl))
  have hpairs := hxs.sublist (List.filter_sublist (p := fun y => decide (s.Within (f y))))
  rw [hfront, List.pairwise_append] at hpairs
  refine ⟨hmem, hin, ?_⟩
  intro y hy hyin
  rcases List.mem_append.1 ((hall y).2 ⟨hy, hyin⟩) with hbefore | hlast
  · rcases hpairs.2.2 y hbefore x (List.mem_singleton.2 rfl) with hbehind | hinside
    · have hstart := hin.1
      have hstop := hyin.2
      omega
    · exact hinside
  · rw [List.mem_singleton.1 hlast]
    exact .refl _

end Span

namespace Markup

/-! ## Elements that nest -/

/-- Whether elements lie in a span, each of them behind or inside those before it. -/
structure Element.Nest (s : Span) (es : List Element) : Prop where
  within : ∀ e ∈ es, e.span.Within s
  follows : es.Pairwise fun e f => f.span.Follows e.span

namespace Element

theorem Nest.nil (s : Span) : Nest s [] := ⟨by simp, .nil⟩

/-- An element has its content between its tags. -/
theorem content_within (e : Element) :
    (Span.ofSize e.startTagSpan.stop (Node.widthOfAll e.content)).Within e.span := by
  have hstop := e.contentStop_add_width
  rw [contentStop] at hstop
  refine ⟨Nat.le_add_right _ _, ?_⟩
  show e.startTagSpan.stop + Node.widthOfAll e.content ≤ e.start + e.node.width
  omega

/-- What nests in the content of an element nests in the element, and behind its start. -/
theorem Nest.element {e : Element} {es : List Element}
    (h : Nest (.ofSize e.startTagSpan.stop (Node.widthOfAll e.content)) es) :
    Nest e.span (e :: es) where
  within := by
    rw [List.forall_mem_cons]
    exact ⟨.refl _, fun f hf => (h.within f hf).trans e.content_within⟩
  follows := by
    rw [List.pairwise_cons]
    exact ⟨fun f hf => .inr ((h.within f hf).trans e.content_within), h.follows⟩

/-- What nests in the one of two spans that meet comes before what nests in the other. -/
theorem Nest.append {start size more : Nat} {es fs : List Element}
    (hes : Nest (.ofSize start size) es) (hfs : Nest (.ofSize (start + size) more) fs) :
    Nest (.ofSize start (size + more)) (es ++ fs) where
  within := by
    rw [List.forall_mem_append]
    constructor
    · intro e he
      obtain ⟨hstart, hstop⟩ := hes.within e he
      simp only [Span.ofSize] at hstart hstop
      exact ⟨hstart, show e.span.stop ≤ start + (size + more) by omega⟩
    · intro f hf
      obtain ⟨hstart, hstop⟩ := hfs.within f hf
      simp only [Span.ofSize] at hstart hstop
      exact ⟨show start ≤ f.span.start by omega, show f.span.stop ≤ start + (size + more) by omega⟩
  follows := by
    refine List.pairwise_append.2 ⟨hes.follows, hfs.follows, ?_⟩
    intro e he f hf
    exact .inl (Nat.le_trans (hes.within e he).2 (hfs.within f hf).1)

end Element

namespace Node

mutual

theorem nest_views (enclosing : List Enclosure) (before after : List Item) (offset : Nat) :
    ∀ n : Node, Element.Nest (.ofSize offset n.width)
      (View.elements (n.views enclosing before after offset))
  | .strayEnd tag => .nil _
  | .run kind t => by
    rw [elements_views_run]
    exact .nil _
  | .element tag content endTag => by
    let e : Element := ⟨offset, tag, content, endTag⟩
    have hcontent := nest_viewsOfAll (⟨e, before, after⟩ :: enclosing) [] e.children
      e.startTagSpan.stop content
    rw [elements_views_element]
    exact Element.Nest.element hcontent

theorem nest_viewsOfAll (enclosing : List Enclosure) (before items : List Item) (offset : Nat) :
    ∀ ns : List Node, Element.Nest (.ofSize offset (widthOfAll ns))
      (View.elements (viewsOfAll enclosing before items offset ns))
  | [] => .nil _
  | n :: ns => by
    rw [viewsOfAll, View.elements_append]
    exact (nest_views enclosing _ _ _ n).append (nest_viewsOfAll enclosing _ _ _ ns)

end

end Node

/-- **The elements of a document nest.** -/
theorem Document.nest_elements (d : Document) : Element.Nest (.ofSize 0 d.width) d.elements := by
  cases d with
  | markup nodes => exact Node.nest_viewsOfAll [] [] _ 0 nodes
  | binary t => exact .nil _

/-- Of two elements the one lies behind the other or inside it. -/
theorem Document.follows_or_follows {d : Document} {e f : Element} (he : e ∈ d.elements)
    (hf : f ∈ d.elements) : e.span.Follows f.span ∨ f.span.Follows e.span := by
  let nests (e f : Element) : Prop := e.span.Follows f.span ∨ f.span.Follows e.span
  have hsymm : Std.Symm nests := ⟨fun _ _ => Or.symm⟩
  have hself : ∀ e ∈ d.elements, nests e e := fun e _ => .inl (.inr (.refl _))
  have hpairs : d.elements.Pairwise nests := d.nest_elements.follows.imp .inr
  exact hpairs.forall_of_forall hself he hf

/-! ## Tokens in elements -/

namespace Leaf

/-- The element that a token belongs to. -/
def element? (l : Leaf) : Option Element :=
  (l.owner.bind View.element?).bind fun v => v.item.element?

/-- Those of some elements that are around a token. -/
def around (l : Leaf) (es : List Element) : List Element :=
  es.filter fun e => decide (l.span.Within e.span)

/-- Whether a token has a byte and belongs to the last of some elements that is around it, or to the
element around them all. -/
structure Belongs (l : Leaf) (es : List Element) (outer : Option Element) : Prop where
  nonempty : l.span.start < l.span.stop
  element? : l.element? = (l.around es).getLast?.or outer

theorem element?_of_owner {l : Leaf} {enclosing : List Enclosure}
    (h : l.owner = View.ofEnclosing enclosing) :
    l.element? = enclosing.head?.map Enclosure.element := by
  rw [element?, h]
  cases enclosing <;> rfl

/-- No element is around a token that lies apart from the span that they are in. -/
theorem around_eq_nil {l : Leaf} {s : Span} {es : List Element} (hes : ∀ e ∈ es, e.span.Within s)
    (hl : l.span.start < l.span.stop) (hapart : l.span.stop ≤ s.start ∨ s.stop ≤ l.span.start) :
    l.around es = [] := by
  rw [around, List.filter_eq_nil_iff]
  intro e he haround
  obtain ⟨hstart, hstop⟩ := hes e he
  obtain ⟨hstart', hstop'⟩ := of_decide_eq_true haround
  omega

namespace Belongs

variable {l : Leaf} {es fs : List Element} {outer : Option Element}

theorem of_around (hl : l.span.start < l.span.stop) (helement : l.element? = outer)
    (haround : l.around es = []) : l.Belongs es outer :=
  ⟨hl, by rw [haround, helement]; rfl⟩

/-- A token in an element belongs to what it belongs to in there. -/
theorem inside {e : Element} (h : l.Belongs es (some e)) (hin : l.span.Within e.span) :
    l.Belongs (e :: es) outer := by
  refine ⟨h.nonempty, ?_⟩
  have haround : l.around (e :: es) = e :: l.around es :=
    List.filter_cons_of_pos (decide_eq_true hin)
  rw [h.element?, haround, List.getLast?_cons]
  cases (l.around es).getLast? <;> rfl

theorem append (h : l.Belongs es outer) (haround : l.around fs = []) :
    l.Belongs (es ++ fs) outer := by
  refine ⟨h.nonempty, ?_⟩
  rw [around, List.filter_append, ← around, ← around, haround, List.append_nil]
  exact h.element?

theorem prepend (h : l.Belongs fs outer) (haround : l.around es = []) :
    l.Belongs (es ++ fs) outer := by
  refine ⟨h.nonempty, ?_⟩
  rw [around, List.filter_append, ← around, ← around, haround, List.nil_append]
  exact h.element?

end Belongs

/-- A leaf of some texts has a byte and their owner. -/
theorem of_mem_ofTexts {owner : Option View} {offset : Nat} {texts : List (Role × Text)} {l : Leaf}
    (hl : l ∈ ofTexts owner offset texts) : l.span.start < l.span.stop ∧ l.owner = owner := by
  induction texts generalizing offset with
  | nil => cases hl
  | cons entry texts ih =>
    obtain ⟨role, t⟩ := entry
    rw [ofTexts] at hl
    rcases List.mem_append.1 hl with hl | hl
    · cases t with
      | nil => cases hl
      | cons c t =>
        rw [List.mem_singleton.1 hl]
        have hwidth : 0 < Text.width (c :: t) :=
          Nat.pos_of_ne_zero fun hzero => List.cons_ne_nil c t (Text.width_eq_zero.1 hzero)
        exact ⟨Nat.lt_add_of_pos_right hwidth, rfl⟩
    · exact ih hl

theorem IsTiling.within {start size : Nat} {ls : List Leaf} (h : IsTiling start (start + size) ls)
    {l : Leaf} (hl : l ∈ ls) : l.span.Within (.ofSize start size) :=
  ⟨h.le_start hl, h.stop_le hl⟩

/-- Of tokens that have a byte, the one that ends at an offset is found there. -/
theorem IsTiling.find?_stop {a b offset : Nat} {ls : List Leaf} (h : IsTiling a b ls)
    (hbytes : ∀ l ∈ ls, l.span.start < l.span.stop) {l : Leaf} (hl : l ∈ ls)
    (hstop : l.span.stop = offset) : (ls.find? fun l => l.span.stop == offset) = some l := by
  cases hfound : ls.find? fun l => l.span.stop == offset with
  | none => exact absurd (beq_iff_eq.2 hstop) (List.find?_eq_none.1 hfound l hl)
  | some m =>
    have hm := List.mem_of_find?_eq_some hfound
    have hstop' : m.span.stop = offset :=
      beq_iff_eq.1 (List.find?_some (p := fun l : Leaf => l.span.stop == offset) hfound)
    have hbyte := hbytes l hl
    have hbyte' := hbytes m hm
    -- Both hold the byte before the offset.
    have hin : l.span.contains (offset - 1) = true := Span.contains_iff.2 ⟨by omega, by omega⟩
    have hin' : m.span.contains (offset - 1) = true := Span.contains_iff.2 ⟨by omega, by omega⟩
    rw [← h.find?_contains hl hin, ← h.find?_contains hm hin']

end Leaf

open Leaf (IsTiling isTiling_ofTexts)

/-- A token in a start tag belongs to the element of the tag. -/
theorem TagItem.of_mem_leavesOfAll {enclosing : List Enclosure} {before : List Item} {offset : Nat}
    {items : List TagItem} {l : Leaf} (hl : l ∈ leavesOfAll enclosing before offset items) :
    l.span.start < l.span.stop ∧ l.element? = enclosing.head?.map Enclosure.element := by
  induction items generalizing before offset with
  | nil => cases hl
  | cons i items ih =>
    match i with
    | .attribute a =>
      rcases List.mem_append.1 hl with hl | hl
      · obtain ⟨hbyte, howner⟩ := Leaf.of_mem_ofTexts hl
        refine ⟨hbyte, ?_⟩
        rw [Leaf.element?, howner]
        cases enclosing <;> rfl
      · exact ih hl
    | .filler f =>
      rcases List.mem_append.1 hl with hl | hl
      · obtain ⟨hbyte, howner⟩ := Leaf.of_mem_ofTexts hl
        exact ⟨hbyte, Leaf.element?_of_owner howner⟩
      · exact ih hl

namespace Node

/-- A token of the tags of an element has a byte, belongs to the element, and lies before or behind
its content. -/
theorem of_mem_leaves_element {enclosing : List Enclosure} {before after : List Item} {offset : Nat}
    {tag : StartTag} {content : List Node} {endTag : Option EndTag} {l : Leaf}
    (hl : l ∈ (element tag content endTag).leaves enclosing before after offset) :
    let e : Element := ⟨offset, tag, content, endTag⟩
    l ∈ leavesOfAll (⟨e, before, after⟩ :: enclosing) [] e.children e.startTagSpan.stop content ∨
      l.span.start < l.span.stop ∧ l.element? = some e ∧
        (l.span.stop ≤ e.startTagSpan.stop ∨ e.contentStop ≤ l.span.start) := by
  intro e
  let owner := View.ofEnclosing (⟨e, before, after⟩ :: enclosing)
  have hown {start : Nat} {texts : List (Role × Text)} (hl : l ∈ Leaf.ofTexts owner start texts) :
      l.span.start < l.span.stop ∧ l.element? = some e ∧
        l.span.Within (.ofSize start (Text.width (texts.flatMap Prod.snd))) := by
    obtain ⟨hbyte, howner⟩ := Leaf.of_mem_ofTexts hl
    exact ⟨hbyte, Leaf.element?_of_owner howner, (isTiling_ofTexts owner start texts).within hl⟩
  rw [leaves.eq_def] at hl
  simp only [List.mem_append] at hl
  rcases hl with hopening | hitem | hending | hcontent | hcloser
  · obtain ⟨hbyte, helement, -, hstop⟩ := hown hopening
    have hname : offset + Text.width ([(Role.startOpener, tag.opener), (.startName, e.name)].flatMap
        Prod.snd) = e.itemsStart := by
      simp [e, Element.itemsStart, Nat.add_assoc]
    refine .inr ⟨hbyte, helement, .inl ?_⟩
    calc l.span.stop ≤ e.itemsStart := Nat.le_trans hstop (Nat.le_of_eq hname)
      _ ≤ e.itemsStart + TagItem.widthOfAll tag.items := Nat.le_add_right _ _
      _ ≤ e.startTagSpan.stop := e.itemsStart_le_stop
  · obtain ⟨hbyte, helement⟩ := TagItem.of_mem_leavesOfAll hitem
    have hstop := ((TagItem.isTiling_leavesOfAll _ _ _ _).within hitem).2
    exact .inr ⟨hbyte, helement, .inl (Nat.le_trans hstop e.itemsStart_le_stop)⟩
  · obtain ⟨hbyte, helement, -, hstop⟩ := hown hending
    rw [List.flatMap_singleton] at hstop
    exact .inr ⟨hbyte, helement, .inl (Nat.le_trans hstop (Nat.le_of_eq e.stop_sub_add_ending))⟩
  · exact .inl hcontent
  · cases endTag with
    | none => cases hcloser
    | some closer =>
      obtain ⟨hbyte, helement, hstart, -⟩ := hown hcloser
      exact .inr ⟨hbyte, helement, .inr hstart⟩

mutual

/-- Every token of a node belongs to the innermost element around it. -/
theorem belongs_leaves (enclosing : List Enclosure) (before after : List Item) (offset : Nat) :
    ∀ n : Node, ∀ l ∈ n.leaves enclosing before after offset,
      l.Belongs (View.elements (n.views enclosing before after offset))
        (enclosing.head?.map Enclosure.element)
  | .strayEnd tag, l, hl => by
    obtain ⟨hbyte, howner⟩ := Leaf.of_mem_ofTexts hl
    exact .of_around hbyte (Leaf.element?_of_owner howner) rfl
  | .run kind t, l, hl => by
    rw [elements_views_run]
    obtain ⟨hbyte, howner⟩ := Leaf.of_mem_ofTexts hl
    refine .of_around hbyte ?_ rfl
    rw [Leaf.element?, howner]
    cases kind.content? <;> cases enclosing <;> rfl
  | .element tag content endTag, l, hl => by
    let e : Element := ⟨offset, tag, content, endTag⟩
    let inside := ⟨e, before, after⟩ :: enclosing
    have hnest := nest_viewsOfAll inside [] e.children e.startTagSpan.stop content
    -- The element is around all its tokens, and outside every element in its content.
    have hwithin : l.span.Within e.span :=
      (isTiling_leaves enclosing before after offset _).within hl
    rw [elements_views_element]
    refine .inside ?_ hwithin
    rcases of_mem_leaves_element hl with hcontent | ⟨hbyte, helement, hapart⟩
    · exact belongs_leavesOfAll inside _ _ _ content l hcontent
    · exact .of_around hbyte helement (Leaf.around_eq_nil hnest.within hbyte hapart)

theorem belongs_leavesOfAll (enclosing : List Enclosure) (before items : List Item) (offset : Nat) :
    ∀ ns : List Node, ∀ l ∈ leavesOfAll enclosing before items offset ns,
      l.Belongs (View.elements (viewsOfAll enclosing before items offset ns))
        (enclosing.head?.map Enclosure.element)
  | [], l, hl => nomatch hl
  | n :: ns, l, hl => by
    rw [viewsOfAll, View.elements_append]
    rw [leavesOfAll] at hl
    -- A token with a byte in one node lies apart from the elements in the others.
    rcases List.mem_append.1 hl with hl | hl
    · have hbelongs := belongs_leaves enclosing _ _ _ n l hl
      have hstop := ((isTiling_leaves enclosing _ _ offset n).within hl).2
      exact hbelongs.append (Leaf.around_eq_nil (nest_viewsOfAll enclosing _ _ _ ns).within
        hbelongs.nonempty (.inl hstop))
    · have hbelongs := belongs_leavesOfAll enclosing _ _ _ ns l hl
      have hstart := ((isTiling_leavesOfAll enclosing _ _ (offset + n.width) ns).within hl).1
      exact hbelongs.prepend (Leaf.around_eq_nil (nest_views enclosing _ _ _ n).within
        hbelongs.nonempty (.inr hstart))

end

end Node

namespace Document

variable {d : Document} {l : Leaf}

/-- **A token belongs to the innermost element around it, if there is any.** -/
theorem belongs_leaves (hl : l ∈ d.leaves) : l.Belongs d.elements none := by
  cases d with
  | markup nodes => exact Node.belongs_leavesOfAll [] [] _ 0 nodes l hl
  | binary t =>
    obtain ⟨hbyte, howner⟩ := Leaf.of_mem_ofTexts hl
    exact .of_around hbyte (by rw [Leaf.element?, howner]; rfl) rfl

end Document

/-- Whether an element of a document is around a span, and every other one that is is around the
element as well. -/
structure Element.Innermost (e : Element) (d : Document) (s : Span) : Prop where
  mem : e ∈ d.elements
  around : s.Within e.span
  within : ∀ f ∈ d.elements, s.Within f.span → e.span.Within f.span

/-- Two innermost elements have the same span. -/
theorem Element.Innermost.span_eq {d : Document} {s : Span} {e f : Element} (he : e.Innermost d s)
    (hf : f.Innermost d s) : e.span = f.span :=
  (he.within f hf.mem hf.around).antisymm (hf.within e he.mem he.around)

/-- The token that counts at an offset: the one that holds the byte there, and the last one at the
end of the document. -/
structure Document.TokenAt (d : Document) (offset : Nat) (l : Leaf) : Prop where
  mem : l ∈ d.leaves
  at_offset : l.span.contains offset = true ∨ offset = d.width ∧ l.span.stop = offset

namespace Document

variable {d : Document} {l : Leaf}

theorem innermost_of_element? (hl : l ∈ d.leaves) {e : Element} (he : l.element? = some e) :
    e.Innermost d l.span := by
  obtain ⟨hbyte, hlast⟩ := belongs_leaves hl
  rw [he, Option.or_none] at hlast
  obtain ⟨hmem, hin, hall⟩ := Span.within_of_last d.nest_elements.follows hbyte hlast.symm
  exact ⟨hmem, hin, hall⟩

theorem element?_of_innermost (hl : l ∈ d.leaves) {e : Element} (he : e.Innermost d l.span) :
    ∃ f, l.element? = some f ∧ f.span = e.span := by
  obtain ⟨-, hlast⟩ := belongs_leaves hl
  cases hf : l.element? with
  | some f => exact ⟨f, rfl, (innermost_of_element? hl hf).span_eq he⟩
  | none =>
    rw [hf, Option.or_none, eq_comm, List.getLast?_eq_none_iff, Leaf.around,
      List.filter_eq_nil_iff] at hlast
    exact absurd (decide_eq_true he.around) (hlast e he.mem)

/-- **The right one of the tokens that meet at an offset is the one that counts.** -/
theorem tokenAt_iff {offset : Nat} (hoffset : offset ≤ d.width) :
    (d.leaves.find? fun l => l.span.contains offset).or
      (d.leaves.find? fun l => l.span.stop == offset) = some l ↔ d.TokenAt offset l := by
  have htiling := d.isTiling_leaves
  rw [Option.or_eq_some_iff]
  constructor
  · intro hfound
    rcases hfound with hright | ⟨hnone, hleft⟩
    · exact ⟨List.mem_of_find?_eq_some hright,
        .inl (List.find?_some (p := fun l : Leaf => l.span.contains offset) hright)⟩
    · have hstop : l.span.stop = offset :=
        beq_iff_eq.1 (List.find?_some (p := fun l : Leaf => l.span.stop == offset) hleft)
      refine ⟨List.mem_of_find?_eq_some hleft, .inr ⟨?_, hstop⟩⟩
      -- In front of the end a token would hold the byte.
      apply Nat.le_antisymm hoffset
      apply Nat.not_lt.1
      intro hlt
      obtain ⟨m, hm, hstart, hstop⟩ := htiling.exists_left (Nat.succ_pos offset) hlt
      have hin : m.span.contains offset = true :=
        Span.contains_iff.2 ⟨Nat.le_of_lt_succ hstart, hstop⟩
      exact List.find?_eq_none.1 hnone m hm hin
  · intro h
    obtain ⟨hl, hin | ⟨hend, hstop⟩⟩ := h
    · exact .inl (htiling.find?_contains hl hin)
    · refine .inr ⟨?_, ?_⟩
      · rw [List.find?_eq_none]
        intro m hm hin
        have hle := htiling.stop_le hm
        have hlt := (Span.contains_iff.1 hin).2
        omega
      · exact htiling.find?_stop (fun m hm => (belongs_leaves hm).nonempty) hl hstop

end Document

end Markup

end ProjectFile
