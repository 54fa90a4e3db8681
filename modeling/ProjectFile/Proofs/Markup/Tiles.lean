import ProjectFile.Proofs.Markup.Covered
import ProjectFile.Proofs.Markup.Rows
import ProjectFile.Proofs.Markup.Runs
import ProjectFile.Proofs.Markup.Shown

/-!
The view of an element is tiled by its parts.

Whatever a text is, the start tag of an element, its content and its end tag follow one another
through the span of the element; its children lie in the content and its attributes in the start tag,
each linked to the ones beside it, and they are what has the element for its parent
(`Document.tiled_views`). That there is nothing without a content to lie in comes from the rules of
nesting, that runs of character data do not touch from the reading of the pieces; both pass from an
element to the nodes in it (`Document.isParsed_of_mem_elements`).
-/

namespace ProjectFile.Markup

/-! ## The parts of an element -/

namespace Element

variable {e : Element}

theorem contentSpan_eq_none_iff : e.contentSpan = none ↔ e.tag.ending ≠ .content := by
  rw [contentSpan]
  split
  · next h => simp [h]
  · next h => simp [h]

theorem contentSpan_eq_some_iff {c : Span} :
    e.contentSpan = some c ↔ e.tag.ending = .content ∧ c = ⟨e.startTagSpan.stop, e.contentStop⟩ := by
  rw [contentSpan]
  split
  · next h => simp [h, eq_comm]
  · next h => simp [h]

/-- The content stops where the end tag starts, or else where the element stops. -/
theorem contentStop_eq (e : Element) :
    e.contentStop = (e.endTagSpan.map Span.start).getD e.span.stop := by
  rw [endTagSpan]
  cases hend : e.endTag with
  | some closer => rfl
  | none =>
    have hstop := e.contentStop_add_width
    rw [hend] at hstop
    exact hstop

/-- The end tag stops where the element stops. -/
theorem stop_endTagSpan {s : Span} (h : e.endTagSpan = some s) : s.stop = e.span.stop := by
  obtain ⟨closer, hend, rfl⟩ := Option.map_eq_some_iff.1 h
  have hstop := e.contentStop_add_width
  rw [hend] at hstop
  exact hstop

/-- The pieces of the content are among those of the element, one behind the other. -/
theorem pieces_content_isInfix (e : Element) : Node.piecesOfAll e.content <:+: e.node.pieces :=
  ⟨[.start e.tag], (e.endTag.map Piece.stop).toList, by simp [node, Node.pieces]⟩

/-- The inside of an element that stands in a text is what stands between its tags. -/
theorem innerText_eq {t : Text} (hstands : t.StandsAt e.start e.node.text)
    (hopens : e.tag.ending = .content) :
    e.innerText = t.slice e.startTagSpan.stop e.contentStop := by
  have hinside : Span.Covers ⟨e.startTagSpan.stop, e.contentStop⟩ t (Node.textOfAll e.content) := by
    rw [contentStop, Node.widthOfAll_eq]
    exact hstands.right.left
  rw [innerText, if_pos hopens, hinside.slice_eq]

/-- A child lies between the start tag and the end of the content. -/
theorem within_children {i : Item} (h : i ∈ e.children) :
    i.span.Within ⟨e.startTagSpan.stop, e.contentStop⟩ := by
  obtain ⟨placed, hplaced, hshown⟩ := List.mem_filterMap.1 h
  rw [Item.span_of_ofNode? hshown]
  exact Node.span_of_mem_placed hplaced

/-- An attribute lies in the start tag, behind the name. -/
theorem within_attributes {a : PlacedAttribute} (h : a ∈ e.attributes) :
    a.span.Within e.startTagSpan ∧ ∀ s ∈ e.nameSpan, s.stop ≤ a.span.start := by
  obtain ⟨hstart, hstop⟩ := TagItem.span_of_mem_attributes h
  have hitems := e.itemsStart_le_stop
  refine ⟨⟨?_, by omega⟩, ?_⟩
  · have hbegin : e.startTagSpan.start ≤ e.itemsStart := by
      simp only [startTagSpan, Span.ofSize, itemsStart]
      omega
    omega
  · intro s hs
    obtain ⟨n, hn, rfl⟩ := Option.map_eq_some_iff.1 hs
    have hname : e.name = n := by rw [name, hn]; rfl
    rw [itemsStart, hname] at hstart
    exact hstart

end Element

/-- The value of an attribute is the text between its quotes. -/
theorem PlacedAttribute.value_eq {t : Text} {a : PlacedAttribute}
    (h : t.StandsAt a.start a.attr.text) :
    a.value = a.valueSpan.map fun s => t.slice s.start s.stop := by
  cases hspan : a.valueSpan with
  | none =>
    rw [valueSpan] at hspan
    rw [value, Attribute.value]
    cases hassignment : a.attr.assignment with
    | value before after quoted =>
      rw [hassignment] at hspan
      cases hspan
    | _ => rfl
  | some s =>
    obtain ⟨w, hw⟩ := exists_value hspan
    rw [hw, Option.map_some, (covers_value h hspan hw).slice_eq]

/-! ## Rows in a document -/

/-- Whether some items are those of the views of a document that satisfy `p`, in the order of the
document, and these views are linked to one another. -/
def Document.HasRow (d : Document) (p : View → Prop) (items : List Item) : Prop :=
  ∃ ws : List View, ws.Sublist d.views ∧ (∀ w ∈ d.views, w ∈ ws ↔ p w) ∧
    ws.map View.item = items ∧ View.Linked ws

/-- Every item of a row is in a view. -/
theorem Document.HasRow.exists_view {d : Document} {p : View → Prop} {items : List Item}
    (h : d.HasRow p items) {i : Item} (hi : i ∈ items) : ∃ w ∈ d.views, w.item = i := by
  obtain ⟨ws, hsublist, -, rfl, -⟩ := h
  obtain ⟨w, hw, hitem⟩ := List.mem_map.1 hi
  exact ⟨w, hsublist.subset hw, hitem⟩

/-- What it means for an element in a view of a text to be tiled by its parts. -/
structure View.Tiled (t : Text) (v : View) (e : Element) : Prop where
  /-- The start tag stands in front. -/
  start : e.startTagSpan.start = e.span.start
  /-- Without content the start tag is all that there is. -/
  bare : e.contentSpan = none →
    e.endTagSpan = none ∧ e.children = [] ∧ e.startTagSpan = e.span ∧ e.innerText = []
  /-- The content goes from the start tag to the end tag, or to the end if there is none. -/
  content : ∀ c ∈ e.contentSpan, c.start = e.startTagSpan.stop ∧
    c.stop = (e.endTagSpan.map Span.start).getD e.span.stop ∧ e.innerText = t.slice c.start c.stop
  /-- The end tag goes up to the end. -/
  endTag : ∀ s ∈ e.endTagSpan, s.stop = e.span.stop
  /-- The children are what has the element for its parent and is no attribute. -/
  children : (Document.parse t).HasRow
    (fun w => w.item.attribute? = none ∧ w.parent? = some v) e.children
  childrenWithin : ∀ i ∈ e.children, ∃ c ∈ e.contentSpan, i.span.Within c
  /-- Two children that are character data, blank or not, have something between them. -/
  dataApart : e.children.Pairwise fun i j =>
    i.isData = true → j.isData = true → i.span.stop < j.span.start
  /-- The attributes are those that belong to the element. -/
  attributes : (Document.parse t).HasRow
    (fun w => w.item.attribute?.isSome = true ∧ w.element? = some v) e.attributeItems
  attributesWithin : ∀ a ∈ e.attributes,
    a.span.Within e.startTagSpan ∧ ∀ s ∈ e.nameSpan, s.stop ≤ a.span.start
  values : ∀ a ∈ e.attributes, a.value = a.valueSpan.map fun s => t.slice s.start s.stop

namespace Document

variable {t : Text} {v : View} {e : Element}

/-- Whether a node is nested, and made of pieces of a text that follow one another. -/
def IsParsed (t : Text) (n : Node) : Prop :=
  n.pieces <:+: Piece.ofText t ∧ ∃ around next, n.Nested around next

/-- The elements of a document are made of pieces that follow one another, and are nested. -/
theorem isParsed_of_mem_elements (t : Text) : ∀ e ∈ (parse t).elements, IsParsed t e.node := by
  apply forall_elements
  · intro n hn
    have hnodes : n ∈ Node.ofPieces (Piece.ofText t) := by
      unfold parse at hn
      split at hn
      · cases hn
      · exact hn
    constructor
    · have hwithin := Node.infix_pieces_of_mem hnodes
      rwa [Node.piecesOfAll_ofPieces] at hwithin
    · exact ⟨_, (Node.nestedAll_ofPieces (Piece.ofText t)).of_mem hnodes⟩
  · intro e he n hn
    obtain ⟨hpieces, around, next, hnested⟩ := he
    obtain ⟨⟨next', hcontent⟩, -⟩ := Node.Nested.inside hnested
    constructor
    · exact (Node.infix_pieces_of_mem hn).trans (e.pieces_content_isInfix.trans hpieces)
    · exact ⟨_, hcontent.of_mem hn⟩

/-- Where an element has no content, it has nothing behind its start tag. -/
theorem ending_or_empty (he : e ∈ (parse t).elements) :
    e.tag.ending = .content ∨ e.content = [] ∧ e.endTag = none := by
  obtain ⟨-, around, next, hnested⟩ := isParsed_of_mem_elements t e he
  exact (Node.Nested.inside hnested).2

/-- An element without a content is nothing but its start tag. -/
theorem eq_startTag_of_contentSpan (he : e ∈ (parse t).elements) (hnone : e.contentSpan = none) :
    e.endTagSpan = none ∧ e.children = [] ∧ e.startTagSpan = e.span ∧ e.innerText = [] := by
  have hbare := Element.contentSpan_eq_none_iff.1 hnone
  obtain ⟨hcontent, hend⟩ := (ending_or_empty he).resolve_left hbare
  refine ⟨?_, ?_, ?_, ?_⟩
  · rw [Element.endTagSpan, hend]
    rfl
  · rw [Element.children, hcontent]
    rfl
  · simp [Element.startTagSpan, Element.span, Element.node, hcontent, hend, Node.width,
      Node.widthOfAll]
  · rw [Element.innerText, if_neg hbare]

/-- Where there are children there is a content, and they lie in it. -/
theorem exists_content_of_mem_children (he : e ∈ (parse t).elements) {i : Item}
    (hi : i ∈ e.children) : ∃ c ∈ e.contentSpan, i.span.Within c := by
  have hopens : e.tag.ending = .content := by
    refine (ending_or_empty he).resolve_right fun h => ?_
    rw [Element.children, h.1] at hi
    cases hi
  exact ⟨_, Element.contentSpan_eq_some_iff.2 ⟨hopens, rfl⟩, Element.within_children hi⟩

/-- In the content of an element runs of character data do not touch. -/
theorem pairwise_children (he : e ∈ (parse t).elements) : e.children.Pairwise fun i j =>
    i.isData = true → j.isData = true → i.span.stop < j.span.start := by
  obtain ⟨hpieces, -⟩ := isParsed_of_mem_elements t e he
  have hwithin : Node.piecesOfAll e.content <:+: Piece.ofText t :=
    e.pieces_content_isInfix.trans hpieces
  apply Item.pairwise_ofNodes
  · apply Node.isChain_of_pieces
    exact List.IsChain.infix (Piece.isChain_ofText t) hwithin
  · intro n hn
    apply Node.width_pos_of_solid
    intro p hp
    exact Piece.solid_ofText t p (hwithin.subset ((Node.infix_pieces_of_mem hn).subset hp))

theorem hasRow_children (hv : v ∈ (parse t).views) (hitem : v.item = .element e) :
    (parse t).HasRow (fun w => w.item.attribute? = none ∧ w.parent? = some v) e.children := by
  refine ⟨v.childRow e, ((parse t).family_views.rows v hv e hitem).2, ?_, ?_, ?_⟩
  · exact fun w hw => mem_childRow_iff hw hitem
  · exact View.map_item_row
  · exact View.linked_row

theorem hasRow_attributes (hv : v ∈ (parse t).views) (hitem : v.item = .element e) :
    (parse t).HasRow (fun w => w.item.attribute?.isSome = true ∧ w.element? = some v)
      e.attributeItems := by
  refine ⟨v.attributeRow e, ((parse t).family_views.rows v hv e hitem).1, ?_, ?_, ?_⟩
  · intro w hw
    rw [mem_attributeRow_iff hw hitem]
    refine and_congr_right fun hattribute => ?_
    -- An attribute belongs to the element that is its parent.
    rw [View.element?]
    split
    · next f hf =>
      rw [hf] at hattribute
      cases hattribute
    · rfl
  · exact View.map_item_row
  · exact View.linked_row

/-- Every attribute of an element is in a view. -/
theorem exists_view_attribute (hv : v ∈ (parse t).views) (hitem : v.item = .element e)
    {a : PlacedAttribute} (ha : a ∈ e.attributes) : ∃ w ∈ (parse t).views, w.item = .attribute a :=
  (hasRow_attributes hv hitem).exists_view (List.mem_map_of_mem ha)

/-- So is every element in it. -/
theorem exists_view_child (hv : v ∈ (parse t).views) (hitem : v.item = .element e) {child : Element}
    (hchild : child ∈ e.childElements) : ∃ w ∈ (parse t).views, w.item = .element child :=
  (hasRow_children hv hitem).exists_view
    (List.mem_filterMap.2 ⟨_, Element.mem_childElements.1 hchild, rfl⟩)

theorem exists_view_root {root : Element} (hroot : (parse t).root? = some root) :
    ∃ v ∈ (parse t).views, v.item = .element root := by
  obtain ⟨i, hi, helement⟩ := List.exists_of_findSome?_eq_some hroot
  have hrow : i ∈ (View.row [] [] (parse t).children).map View.item := by rwa [View.map_item_row]
  obtain ⟨v, hv, hitem⟩ := List.mem_map.1 hrow
  exact ⟨v, (parse t).family_views.top_sublist.subset hv, hitem.trans (Item.element?_eq_some helement)⟩

/-- The value of an attribute is the text where it stands. -/
theorem value_of_mem_attributes (hv : v ∈ (parse t).views) (hitem : v.item = .element e)
    {a : PlacedAttribute} (ha : a ∈ e.attributes) :
    a.value = a.valueSpan.map fun s => t.slice s.start s.stop := by
  obtain ⟨w, hw, hwitem⟩ := exists_view_attribute hv hitem ha
  have hview := stands_views t w hw
  rw [hwitem] at hview
  exact PlacedAttribute.value_eq hview

/-- **Every element of a text, well formed or not, is tiled by its parts.** The views are what the
concrete tree shows, one by one, so these are all elements of the tree. -/
theorem tiled_views (t : Text) : (parse t).views.map (parse t).siteOf = Site.shown (parse t).sites ∧
    ∀ v ∈ (parse t).views, ∀ e, v.item = .element e → v.Tiled t e := by
  refine ⟨map_siteOf_views _, ?_⟩
  intro v hv e hitem
  have he : e ∈ (parse t).elements := mem_elements_iff.2 ⟨v, hv, hitem⟩
  have hstands : t.StandsAt e.start e.node.text := by
    have hview := stands_views t v hv
    rwa [hitem] at hview
  constructor
  case start => rfl
  case bare => exact eq_startTag_of_contentSpan he
  case content =>
    intro c hc
    obtain ⟨hopens, rfl⟩ := Element.contentSpan_eq_some_iff.1 hc
    exact ⟨rfl, e.contentStop_eq, Element.innerText_eq hstands hopens⟩
  case endTag => exact fun s hs => Element.stop_endTagSpan hs
  case children => exact hasRow_children hv hitem
  case childrenWithin => exact fun i hi => exists_content_of_mem_children he hi
  case dataApart => exact pairwise_children he
  case attributes => exact hasRow_attributes hv hitem
  case attributesWithin => exact fun a ha => Element.within_attributes ha
  case values => exact fun a ha => value_of_mem_attributes hv hitem ha

/-- An element that is not closed, with a stray end tag in it and a tag that does not end. -/
def unclosed : Text := "<a b='1' / c=>x<!y>z</d>\n<e f=\"".toList

theorem tiled_views_unclosed : ∃ v ∈ (parse unclosed).views, ∃ e, v.item = .element e ∧
    e.endTagSpan = none ∧ e.children.map Item.isData = [true, true, true, false] ∧
      e.attributes.map PlacedAttribute.value = [some ['1'], none] ∧ v.Tiled unclosed e := by
  have hfirst : (parse unclosed).elements.head (by decide +kernel) ∈ (parse unclosed).elements :=
    List.head_mem _
  obtain ⟨v, hv, hitem⟩ := mem_elements_iff.1 hfirst
  refine ⟨v, hv, _, hitem, ?_, ?_, ?_, (tiled_views unclosed).2 v hv _ hitem⟩
  · decide +kernel
  · decide +kernel
  · decide +kernel

end Document

end ProjectFile.Markup
