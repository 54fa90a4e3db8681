import ProjectFile.Proofs.Editor.Recovery
import ProjectFile.Proofs.Markup.TagSlot

/-!
New elements and attributes where they are offered.

Wherever the editor offers a new child of an element of a text without errors, `<x/>` may be put
in: the text is still without errors, the new element is a child of that element, and every other
element has its tags and its parent as before (`completeElement?_sound`). The place is a slot, so
all of this is about one more node among those of the slot.

Wherever it offers a new attribute, `x="v"` may be put in with the spaces that it asks for: the
element has the attribute behind those in front of the place, and nothing else changes
(`completeAttribute?_sound`). The place is a slot in a start tag. The spaces are asked for by what
leaves are beside it, and these are the words on both sides of the slot (`padding_inspect`).
-/

namespace ProjectFile.Editor

open Markup

/-! ## Elements -/

/-- What the element `<x/>`, inserted at `offset` into the content of the element `around`, does to a
text: it is a child of that element, and all other elements are there as before, moved if they
start behind it. -/
structure ElementInserts (t : Text) (offset : Nat) (around : Element) (x : Text) : Prop where
  errors : (Document.parse (t.insertAt offset (emptyTag x))).errors = []
  inserted : ∃ v ∈ (Document.parse (t.insertAt offset (emptyTag x))).views, ∃ e parent,
    v.item = .element e ∧ e.span = .ofSize offset (emptyTag x).width ∧ e.name = x ∧
      e.attributes.length = 0 ∧ e.isSelfClosing = true ∧ v.parentElement? = some parent ∧
      parent.start = around.start ∧ parent.tag = around.tag ∧ parent.endTag = around.endTag
  kept : ∃ before after : List Head, (Document.parse t).heads = before ++ after ∧
    (Document.parse (t.insertAt offset (emptyTag x))).heads =
      before.map (Head.move (Text.moved offset (emptyTag x).width)) ++
        ⟨offset, Written.startTag x [] .selfClosed, none, some around.start⟩ ::
          after.map (Head.move (Text.moved offset (emptyTag x).width))

/-- An element without content goes into a slot. -/
theorem elementInserts {t : Text} (s : Slot t) {x : Text} (hx : Text.isName x = true) :
    ElementInserts t s.offset (s.element s.inner) x := by
  obtain ⟨hparse, herrors⟩ := s.insert_emptyTag hx
  let tag := Written.startTag x [] .selfClosed
  have hwidth : (Node.element tag [] none).width = (emptyTag x).width := by
    rw [← Written.text_emptyTag]
    rfl
  refine ⟨herrors, ?inserted, ?kept⟩
  case inserted =>
    obtain ⟨v, hv, hitem, hparent⟩ := s.exists_view hparse rfl
    have hspan : Element.span ⟨s.offset, tag, [], none⟩ = .ofSize s.offset (emptyTag x).width := by
      rw [← hwidth]
      rfl
    exact ⟨v, hv, _, _, hitem, hspan, rfl, rfl, rfl, hparent, rfl, rfl, rfl⟩
  case kept =>
    obtain ⟨before, after, hold, hnew⟩ := s.heads_insert hparse
    rw [hwidth] at hnew
    exact ⟨before, after, hold, hnew⟩

/-- **A new element may be put where it is offered.** -/
theorem completeElement?_sound {t : Text} (h : (Document.parse t).errors = []) {offset : Nat}
    {c : ElementCompletion} (hc : (inspect (Document.parse t) offset).completeElement? none = some c)
    {p : View} (hp : c.parent = some p) (hnew : c.replaced = none) {x : Text}
    (hx : Text.isName x = true) :
    ∃ around, p.item = .element around ∧ ElementInserts t offset around x := by
  obtain ⟨s, rfl, hitem, -⟩ := exists_slot h hc hp hnew
  exact ⟨_, hitem, elementInserts s hx⟩

/-- An element with a text, a child and a section that no space keeps apart. -/
def mixedContent : Text := "<p k='1'>é<q/><![CDATA[<]]><r></r></p>".toList

/-- Between the child and the section is such a place. -/
theorem completeElement?_sound_mixedContent : (Document.parse mixedContent).errors = [] ∧
    Text.isName ['x'] = true ∧ ∃ c p around,
      (inspect (Document.parse mixedContent) 15).completeElement? none = some c ∧
        c.parent = some p ∧ c.replaced = none ∧ p.item = .element around ∧
        ElementInserts mixedContent 15 around ['x'] := by
  have herrors : (Document.parse mixedContent).errors = [] := by decide +kernel
  have hname : Text.isName ['x'] = true := by decide +kernel
  have hfound : ((inspect (Document.parse mixedContent) 15).completeElement? none).map (fun c =>
      (c.replaced.isNone, c.parent.isSome)) = some (true, true) := by decide +kernel
  obtain ⟨c, hc, hfound⟩ := Option.map_eq_some_iff.1 hfound
  rw [Prod.mk.injEq, Option.isNone_iff_eq_none, Option.isSome_iff_exists] at hfound
  obtain ⟨hnew, p, hp⟩ := hfound
  obtain ⟨around, hitem, hinserts⟩ := completeElement?_sound herrors hc hp hnew hname
  exact ⟨herrors, hname, c, p, around, hc, hp, hnew, hitem, hinserts⟩

/-! ## Attributes -/

/-- A text with the spaces that a padding asks for. -/
def Padding.around (p : Padding) (w : Text) : Text :=
  (if p.leading then [' '] else []) ++ (w ++ if p.trailing then [' '] else [])

/-- What the attribute `a`, inserted at `offset` into the start tag of the element `e` with the spaces
of a padding, does to a text: there is space in front of it, and space or the end of the tag behind
it; the element has it behind the attributes that end before the place and in front of the others;
and nothing else changes. -/
structure AttributeInserts (t : Text) (offset : Nat) (padding : Padding) (e : Element)
    (a : WrittenAttribute) : Prop where
  errors : (Document.parse (t.insertAt offset (padding.around a.attr.text))).errors = []
  apart : ∃ front before behind back,
    t.insertAt offset (padding.around a.attr.text) =
      front ++ before :: (a.attr.text ++ behind :: back) ∧
    Text.width (front ++ [before]) = offset + (if padding.leading then 1 else 0) ∧
    Text.isMarkupSpace before = true ∧
    (Text.isMarkupSpace behind = true ∨ behind = '/' ∨ behind = '>')
  inserted : ∃ e' ∈ (Document.parse (t.insertAt offset (padding.around a.attr.text))).elements,
    e'.start = e.start ∧ e'.name = e.name ∧ e'.content = e.content ∧ e'.endTag = e.endTag ∧
    (∃ before behind, e.attributes = before ++ behind ∧ (∀ b ∈ before, b.span.stop ≤ offset) ∧
      (∀ b ∈ behind, offset < b.span.stop) ∧ e'.attributes.map PlacedAttribute.attr =
        before.map PlacedAttribute.attr ++ a.attr :: behind.map PlacedAttribute.attr) ∧
    (∃ frames pre post, Document.parse t = .markup (Frame.plug frames (pre ++ e.node :: post)) ∧
      Document.parse (t.insertAt offset (padding.around a.attr.text)) =
        .markup (Frame.plug frames (pre ++ e'.node :: post))) ∧
    (∃ before parent behind,
      (Document.parse t).heads = before ++ ⟨e.start, e.tag, e.endTag, parent⟩ :: behind ∧
      (Document.parse (t.insertAt offset (padding.around a.attr.text))).heads =
        before.map (Head.move (Text.moved offset (padding.around a.attr.text).width)) ++
          ⟨e.start, e'.tag, e.endTag, parent⟩ ::
            behind.map (Head.move (Text.moved offset (padding.around a.attr.text).width)))

section

variable {t : Text} (s : TagSlot t)

/-- **The spaces are asked for where an attribute would touch what is beside it.** -/
theorem padding_inspect : (inspect (Document.parse t) s.offset).padding =
    ⟨TagItem.endApart s.front, TagItem.beginApart s.back⟩ := by
  have hoffset : min s.offset (Document.parse t).width = s.offset := by
    rw [Document.width_parse]
    exact Nat.min_eq_left (Nat.le_of_lt s.offset_lt)
  have htiling := (Document.parse t).isTiling_leaves
  obtain ⟨left, hleft, hbefore⟩ : ∃ l, (inspect (Document.parse t) s.offset).left = some l ∧
      TagItem.endApart s.front = (l.kind != .space) := by
    obtain ⟨before, kind, w, after, hwords, hlt, hle, hapart⟩ := s.exists_word_before
    obtain ⟨l, hl, hkind⟩ := htiling.exists_find? hwords
      (p := fun l => l.span.start < s.offset && s.offset ≤ l.span.stop)
      (fun l hl => by simp only [Bool.and_eq_false_iff, decide_eq_false_iff_not]; omega)
      (fun l hl => by simp only [hl, Span.ofSize, Bool.and_eq_true, decide_eq_true_eq]; omega)
    refine ⟨l, ?_, by rw [hapart, hkind]⟩
    simp only [inspect, hoffset]
    exact hl
  obtain ⟨right, hright, hbehind⟩ : ∃ l, (inspect (Document.parse t) s.offset).right = some l ∧
      TagItem.beginApart s.back = (l.kind == .name) := by
    obtain ⟨before, kind, w, after, hwords, hle, hlt, hapart⟩ := s.exists_word_behind
    obtain ⟨l, hl, hkind⟩ := htiling.exists_find? hwords (p := fun l => l.span.contains s.offset)
      (fun l hl => by simp only [Span.contains, Bool.and_eq_false_iff, decide_eq_false_iff_not]; omega)
      (fun l hl => by simp only [hl, Span.contains, Span.ofSize, Bool.and_eq_true, decide_eq_true_eq]; omega)
    refine ⟨l, ?_, by rw [hapart, hkind]⟩
    simp only [inspect, hoffset]
    exact hl
  rw [Location.padding, hleft, hright, hbefore, hbehind]
  rfl

/-- What is asked for is what has to be inserted for the attribute to be kept apart. -/
theorem around_text (a : Attribute) :
    Padding.around ⟨TagItem.endApart s.front, TagItem.beginApart s.back⟩ a.text = s.textOf a := by
  have hspacing (asked : Bool) :
      (TagItem.spacing asked).flatMap TagItem.text = if asked then [' '] else [] := by
    cases asked <;> rfl
  rw [TagSlot.textOf, TagItem.apart, List.flatMap_append, List.flatMap_cons, hspacing, hspacing]
  rfl

/-- The attribute that is inserted stands between space and what may follow an attribute. -/
theorem apart_insert (a : Attribute) : ∃ front before behind back,
    t.insertAt s.offset (s.textOf a) = front ++ before :: (a.text ++ behind :: back) ∧
      Text.width (front ++ [before]) = s.offset + (if TagItem.endApart s.front then 1 else 0) ∧
      Text.isMarkupSpace before = true ∧
      (Text.isMarkupSpace behind = true ∨ behind = '/' ∨ behind = '>') := by
  obtain ⟨hfront, hback⟩ := s.cut.wellSpaced s.wellSpaced
  obtain ⟨w, before, hw, hbefore⟩ := TagItem.exists_space_before hfront
  obtain ⟨behind, v, hv, hbehind⟩ := TagItem.exists_space_behind hback
    (s.cut.notJunk s.sound_tag.items.notJunk).2 s.sound_tag.ending
  let opening := s.opening.flatMap Piece.text ++ (s.tag.opener ++ s.tag.name.getD [])
  refine ⟨opening ++ w, before, behind, v ++ s.closing.flatMap Piece.text, ?_, ?_, hbefore, hbehind⟩
  · have hfront : s.front.flatMap TagItem.text ++
        (TagItem.spacing (TagItem.endApart s.front)).flatMap TagItem.text = w ++ [before] := by
      rw [← hw, List.flatMap_append]
    have hback : (TagItem.spacing (TagItem.beginApart s.back)).flatMap TagItem.text ++
        (s.back.flatMap TagItem.text ++ s.tag.ending.text) = behind :: v := by
      rw [← hv, List.flatMap_append, List.append_assoc]
    calc t.insertAt s.offset (s.textOf a)
        = opening ++ ((s.front.flatMap TagItem.text ++
            (TagItem.spacing (TagItem.endApart s.front)).flatMap TagItem.text) ++ (a.text ++
              ((TagItem.spacing (TagItem.beginApart s.back)).flatMap TagItem.text ++
                (s.back.flatMap TagItem.text ++ s.tag.ending.text) ++
                  s.closing.flatMap Piece.text))) := by
          rw [s.insertAt_eq]
          simp [opening, TagSlot.tagWith, TagItem.apart, StartTag.text, TagItem.text]
      _ = _ := by
          rw [hfront, hback]
          simp
  · have hspacing : Text.width ((TagItem.spacing (TagItem.endApart s.front)).flatMap TagItem.text) =
        if TagItem.endApart s.front then 1 else 0 := by
      cases TagItem.endApart s.front <;> rfl
    rw [List.append_assoc, ← hw, List.flatMap_append, s.offset_eq, ← hspacing]
    simp only [opening, Text.width_append]
    omega

variable {a : WrittenAttribute} (ha : a.WellFormed)
  (hnew : a.name ∉ (TagItem.attributes s.tag.items).map Attribute.name)

/-- The attributes of the element fall into those that end before the place and those behind it. -/
theorem exists_attributes : ∃ before behind, s.element.attributes = before ++ behind ∧
    (∀ b ∈ before, b.span.stop ≤ s.offset) ∧ (∀ b ∈ behind, s.offset < b.span.stop) ∧
      before.map PlacedAttribute.attr = TagItem.attributes s.front ∧
      behind.map PlacedAttribute.attr = TagItem.attributes s.back := by
  obtain ⟨before, behind, hall, hfront, hback, hbefore, hbehind⟩ :=
    s.cut.exists_placed s.element.itemsStart
  refine ⟨before, behind, hall, hbefore, fun b hb => ?_, hfront, hback⟩
  -- An attribute behind the place is not empty, so it does not end there.
  have hmem : b.attr ∈ TagItem.attributes s.tag.items := by
    rw [s.cut.attributes_eq, ← hback]
    exact List.mem_append_right _ (List.mem_map_of_mem hb)
  have hvalid := s.sound_tag.items.valid b.attr hmem
  rw [Attribute.isValid, Bool.and_eq_true] at hvalid
  obtain ⟨⟨c, w, hname, -⟩, -⟩ := Text.isName_spec hvalid.1
  have hpos := Text.width_pos (t := b.attr.name) (hname ▸ List.cons_ne_nil c w)
  have hspan : b.span.stop = b.span.start + b.attr.text.width := rfl
  have hstart : s.offset ≤ b.span.start := hbehind b hb
  rw [Attribute.text, Text.width_append] at hspan
  omega

include ha hnew

/-- An attribute goes into a slot of a tag with the spaces that keep it apart. -/
theorem attributeInserts : AttributeInserts t s.offset
    ⟨TagItem.endApart s.front, TagItem.beginApart s.back⟩ s.element a := by
  have hreading := s.reading_insert ha hnew
  have htext := around_text s a.attr
  constructor
  case errors =>
    rw [htext]
    exact hreading.errors_eq_nil
  case apart =>
    rw [htext]
    exact apart_insert s a.attr
  case inserted =>
    rw [htext]
    let grown : Element := { s.element with tag := s.tagWith a.attr }
    have helement : grown ∈ (Document.parse (t.insertAt s.offset (s.textOf a.attr))).elements := by
      rw [hreading.parse_eq]
      have hshown : Item.ofNode? (Frame.start 0 s.frames + Node.widthOfAll s.pre, grown.node) =
        some (.element grown) := rfl
      obtain ⟨v, hv, hitem, -⟩ := Frame.exists_view [] []
        (Item.ofNodes 0 (s.nodes (s.tagWith a.attr))) 0 s.frames hshown
      exact Document.mem_elements_iff.2 ⟨v, hv, hitem⟩
    obtain ⟨before, behind, hall, hbefore, hbehind, hfront, hback⟩ := exists_attributes s
    refine ⟨grown, helement, rfl, rfl, rfl, rfl, ⟨before, behind, hall, hbefore, hbehind, ?_⟩,
      ⟨s.frames, s.pre, s.post, s.reading.parse_eq, hreading.parse_eq⟩, s.heads_insert ha hnew⟩
    calc grown.attributes.map PlacedAttribute.attr
        = TagItem.attributes (s.front ++ (TagItem.apart s.front s.back a.attr ++ s.back)) :=
          grown.map_attr_attributes
      _ = TagItem.attributes s.front ++ a.attr :: TagItem.attributes s.back := by
          rw [TagItem.attributes_append, TagItem.attributes_append, TagItem.attributes_apart]
          rfl
      _ = _ := by rw [hfront, hback]

end

/-- Where a new attribute may be inserted there is a slot in the tag of the element. -/
theorem exists_tagSlot {t : Text} (h : (Document.parse t).errors = []) {offset : Nat}
    {c : AttributeCompletion}
    (hc : (inspect (Document.parse t) offset).completeAttribute? none = some c)
    (hreplaced : c.replaced = none) :
    ∃ s : TagSlot t, s.offset = offset ∧ c.element.item = .element s.element ∧
      c.padding = ⟨TagItem.endApart s.front, TagItem.beginApart s.back⟩ := by
  unfold Location.completeAttribute? at hc
  rw [Option.filter_eq_some_iff] at hc
  obtain ⟨hfound, -⟩ := hc
  split at hfound
  · -- On a name the attribute itself would be replaced.
    obtain ⟨v, -, hfound⟩ := Option.bind_eq_some_iff.1 hfound
    obtain ⟨e, -, rfl⟩ := Option.map_eq_some_iff.1 hfound
    cases hreplaced
  · next hkind =>
    obtain ⟨v, hv, rfl⟩ := Option.map_eq_some_iff.1 hfound
    obtain ⟨hnode, -⟩ := Option.filter_eq_some_iff.1 hv
    have hlocated := located_inspect t offset
    obtain ⟨v', hv', e, hitem, hgap⟩ := hlocated.gap hkind
    obtain rfl : v' = v := Option.some.inj (hv'.symm.trans hnode)
    have he : e ∈ (Document.parse t).elements :=
      List.mem_filterMap.2 ⟨v', hlocated.node v' hnode, by rw [hitem]; rfl⟩
    obtain ⟨ns, hreading⟩ := Document.exists_reading h
    obtain ⟨s, hoffset, rfl⟩ := hreading.exists_tagSlot he hgap
    obtain rfl : s.offset = offset := by
      have hlt := s.offset_lt
      rw [offset_inspect] at hoffset
      omega
    exact ⟨s, rfl, hitem, padding_inspect s⟩
  · cases hfound

/-- **A new attribute may be put where it is offered**, with the spaces that are asked for. -/
theorem completeAttribute?_sound {t : Text} (h : (Document.parse t).errors = []) {offset : Nat}
    {c : AttributeCompletion}
    (hc : (inspect (Document.parse t) offset).completeAttribute? none = some c)
    (hreplaced : c.replaced = none) {a : WrittenAttribute} (ha : a.WellFormed) :
    ∃ e, c.element.item = .element e ∧ (a.name ∉ e.attributes.map PlacedAttribute.name →
      AttributeInserts t offset c.padding e a) := by
  obtain ⟨s, rfl, hitem, hpadding⟩ := exists_tagSlot h hc hreplaced
  refine ⟨_, hitem, fun hnew => ?_⟩
  rw [Element.map_name_attributes] at hnew
  rw [hpadding]
  exact attributeInserts s ha hnew

/-- An element with two attributes and more space between them than they need. -/
def twoAttributes : Text := "<p><a k='\"'  b=\"2\"/>é</p>".toList

/-- Right before the second name a space is asked for behind the attribute. -/
theorem completeAttribute?_sound_twoAttributes : (Document.parse twoAttributes).errors = [] ∧
    (⟨['x'], .double, ['é', '>']⟩ : WrittenAttribute).WellFormed ∧ ∃ c e,
      (inspect (Document.parse twoAttributes) 13).completeAttribute? none = some c ∧
        c.replaced = none ∧ c.padding = ⟨false, true⟩ ∧ c.element.item = .element e ∧
        ['x'] ∉ e.attributes.map PlacedAttribute.name ∧
        AttributeInserts twoAttributes 13 c.padding e ⟨['x'], .double, ['é', '>']⟩ := by
  have herrors : (Document.parse twoAttributes).errors = [] := by decide +kernel
  have hwritten : (⟨['x'], .double, ['é', '>']⟩ : WrittenAttribute).WellFormed := by decide +kernel
  have hfound : ((inspect (Document.parse twoAttributes) 13).completeAttribute? none).map (fun c =>
      (c.replaced.isNone, c.padding, c.element.item.element?.map fun e =>
        e.attributes.map PlacedAttribute.name)) =
      some (true, ⟨false, true⟩, some [['k'], ['b']]) := by decide +kernel
  obtain ⟨c, hc, hfound⟩ := Option.map_eq_some_iff.1 hfound
  rw [Prod.mk.injEq, Prod.mk.injEq, Option.isNone_iff_eq_none] at hfound
  obtain ⟨hreplaced, hpadding, hnames⟩ := hfound
  obtain ⟨e, hitem, hinserts⟩ := completeAttribute?_sound herrors hc hreplaced hwritten
  have hnew : ['x'] ∉ e.attributes.map PlacedAttribute.name := by
    have hnames : e.attributes.map PlacedAttribute.name = [['k'], ['b']] := by
      rw [hitem] at hnames
      exact Option.some.inj hnames
    rw [hnames]
    decide
  exact ⟨herrors, hwritten, c, e, hc, hreplaced, hpadding, hitem, hnew, hinserts hnew⟩

end ProjectFile.Editor
