import ProjectFile.Editor.Embedded
import ProjectFile.Proofs.Editor.Geometry
import ProjectFile.Proofs.Expression.Deepest
import ProjectFile.Proofs.Markup.Covered

/-!
The expression and the list item at a location are about the bytes there.

What is read at a location is an attribute value or a text that the offset touches, and is the text of
the document between the ends of its span (`exists_span_of_embedded?`). Spans that count from its start
are moved by as much to count from the start of the document, so what a node tells about the text that
was read it tells about the document (`ExpressionAt.IsAbout`). A list divides all of the text that was
read, so wherever there is such a text there is an item (`answers_about_text`).
-/

namespace ProjectFile.Editor

open Markup Expression

namespace Location

/-- The span of the attribute value, or of the text that is not blank, that a location is on. -/
def sourceSpan? (l : Location) : Option Span :=
  match l.kind, l.node.map View.item with
  | .attributeValue, some (.attribute a) => a.valueSpan
  | .elementContent, some (.content .text start t) => some (.ofSize start t.width)
  | _, _ => none

/-- Whether a location is on an attribute value or on a text that is not blank. -/
def IsOnSource (l : Location) : Prop :=
  l.kind = .attributeValue ∨
    l.kind = .elementContent ∧ ∃ start t, l.node.map View.item = some (.content .text start t)

/-! ## What is read at a location -/

/-- What an expression at a location is read from. -/
theorem exists_embedded_of_expression? {l : Location} {e : ExpressionAt}
    (h : l.expression? = some e) : ∃ source, l.embedded? = some source ∧
      (parseValue source.text = .ok e.root ∨ parseCondition source.text = .ok e.root) ∧
      e.base = source.base ∧ source.base ≤ l.offset ∧ e.offset = l.offset - source.base ∧
      e.root.span.touches e.offset = true := by
  obtain ⟨source, hsource, hread⟩ := Option.bind_eq_some_iff.1 h
  dsimp only at hread
  split at hread
  · cases hread
  · next root hparsed =>
    split at hread
    · next hfound =>
      cases hread
      obtain ⟨hbase, hsome⟩ := hfound
      have htouches : root.span.touches (l.offset - source.base) = true := by
        rw [← Bool.not_eq_false, ← Expr.deepestAt_eq_none_iff, ← Option.not_isSome_iff_eq_none,
          not_not]
        exact hsome
      refine ⟨source, hsource, ?_, rfl, hbase, rfl, htouches⟩
      split at hparsed
      · exact .inr hparsed
      · exact .inl hparsed
    · cases hread

/-- What is read at a location is the part of the text that its span covers, and the location touches
it. -/
theorem exists_span_of_embedded? (t : Text) (offset : Nat) {source : Embedded} :
    let l := inspect (Document.parse t) offset
    l.embedded? = some source → ∃ s, l.sourceSpan? = some s ∧ s.start = source.base ∧
      s.Covers t source.text ∧ s.touches l.offset = true := by
  intro l h
  obtain ⟨-, hviews, hfits⟩ := inspect_fits t offset
  have hstands : ∀ item, l.node.map View.item = some item → item.Stands t := by
    intro item hitem
    obtain ⟨v, hv, rfl⟩ := Option.map_eq_some_iff.1 hitem
    exact Document.stands_views t v (hviews v hv)
  change l.kind.Fits _ l.offset (l.node.map View.item) at hfits
  unfold embedded? at h
  split at h
  · next a hkind hitem =>
    rw [hkind, hitem] at hfits
    rw [sourceSpan?, hkind, hitem]
    obtain ⟨s, hs, htouches⟩ := hfits
    split at h
    · next value span hvalue hspan =>
      cases h
      obtain rfl : span = s := Option.some.inj (hspan.symm.trans hs)
      exact ⟨span, hs, rfl, PlacedAttribute.covers_value (hstands _ hitem) hspan hvalue, htouches⟩
    · cases h
  · next start text hkind hitem =>
    rw [hkind, hitem] at hfits
    rw [sourceSpan?, hkind, hitem]
    cases h
    exact ⟨_, rfl, rfl, hstands _ hitem, hfits⟩
  · cases h

/-- Something is read exactly where there is a value or a text that is not blank. -/
theorem isSome_embedded?_iff (t : Text) (offset : Nat) :
    let l := inspect (Document.parse t) offset
    l.embedded?.isSome = true ↔ l.IsOnSource := by
  intro l
  obtain ⟨-, -, hfits⟩ := inspect_fits t offset
  change l.kind.Fits _ l.offset (l.node.map View.item) at hfits
  unfold embedded? IsOnSource
  split
  · next a hkind hitem =>
    rw [hkind, hitem] at hfits
    obtain ⟨s, hs, -⟩ := hfits
    obtain ⟨w, hw⟩ := PlacedAttribute.exists_value hs
    rw [hs, hw]
    exact iff_of_true rfl (.inl hkind)
  · next start text hkind hitem => exact iff_of_true rfl (.inr ⟨hkind, start, text, hitem⟩)
  · next hvalue htext =>
    refine iff_of_false nofun ?_
    rintro (hkind | ⟨hkind, start, text, hitem⟩)
    · rw [hkind] at hfits
      cases hitem : l.node.map View.item with
      | none =>
        rw [hitem] at hfits
        exact hfits
      | some item =>
        match item, hitem with
        | .attribute a, hitem => exact hvalue a hkind hitem
        | .element e, hitem =>
          rw [hitem] at hfits
          exact hfits
        | .content kind start text, hitem =>
          rw [hitem] at hfits
          exact hfits
    · exact htext start text hkind hitem

end Location

/-! ## What is found -/

/-- The text that a literal or a symbol says it is. -/
def ownText? : Expr → Option Text
  | .literal _ value => some value
  | .symbol s => some s.name
  | _ => none

/-- Whether an expression is about the text of a span, and its node about the bytes at an offset. -/
structure ExpressionAt.IsAbout (e : ExpressionAt) (t : Text) (s : Span) (offset : Nat) : Prop where
  read : parseValue (t.slice s.start s.stop) = .ok e.root ∨
    parseCondition (t.slice s.start s.stop) = .ok e.root
  base_eq : e.base = s.start
  within : e.span.Within s
  touches : e.span.touches offset = true
  /-- What a literal or a symbol says is what stands there. -/
  text : ∀ w, ownText? e.node = some w → t.slice e.span.start e.span.stop = w

/-- Whether a list item is about the text of a span and the bytes at an offset. -/
structure ListItemAt.IsAbout (i : ListItemAt) (t : Text) (s : Span) (offset : Nat) : Prop where
  read : i.list = parseList (t.slice s.start s.stop)
  mem : i.item ∈ i.list.items
  base_eq : i.base = s.start
  touches : ((SimpleList.segmentOf i.item).shift i.base).touches offset = true
  /-- An item has the text that stands there, and an empty one has none. -/
  value : (∃ range segment value e, i.item = .listItem range segment value e ∧ i.value = value ∧
      t.slice i.span.start i.span.stop = value) ∨
    ∃ segment, i.item = .emptyItem segment ∧ i.value = []

theorem touches_shift {s : Span} {base offset : Nat} (hbase : base ≤ offset) :
    (s.shift base).touches offset = s.touches (offset - base) := by
  rw [Bool.eq_iff_iff, Span.touches_iff, Span.touches_iff, Span.shift]
  dsimp only
  omega

/-- The node of an expression is where the way down from its root ends. -/
theorem ExpressionAt.exists_descent {e : ExpressionAt} (h : e.root.span.touches e.offset = true) :
    ∃ path, Expr.Descent e.offset e.root path ∧ path.getLast? = some e.node ∧
      e.node ∈ e.root.descendants ∧ e.node.span.touches e.offset = true := by
  obtain ⟨path, hpath⟩ := Expr.exists_descent e.root h
  obtain ⟨n, hlast, hfound, htouches, -⟩ := hpath.found
  have hnode : e.node = n := by rw [node, hfound, Option.getD_some]
  rw [hnode]
  exact ⟨path, hpath, hlast, hpath.subset n (List.mem_of_getLast? hlast), htouches⟩

theorem isAbout_of_expression? (t : Text) (offset : Nat) {e : ExpressionAt} :
    let l := inspect (Document.parse t) offset
    l.expression? = some e → ∃ s, l.sourceSpan? = some s ∧ e.IsAbout t s l.offset := by
  intro l h
  obtain ⟨source, hsource, hread, hbase, hle, hoffset, hroot⟩ :=
    Location.exists_embedded_of_expression? h
  obtain ⟨s, hs, hstart, hcovers, -⟩ := Location.exists_span_of_embedded? t offset hsource
  obtain ⟨-, -, -, hmem, htouches⟩ := ExpressionAt.exists_descent hroot
  have hshaped : e.node.Shaped source.text := by
    have hall := wellShaped_parse source.text
    rcases hread with hread | hread
    · rw [hread] at hall
      exact hall.1 e.node hmem
    · rw [hread] at hall
      exact hall.2.1 e.node hmem
  have hspan : e.span = e.node.span.shift s.start := by rw [ExpressionAt.span, hbase, hstart]
  refine ⟨s, hs, ⟨?_, ?_, ?_, ?_, ?_⟩⟩
  · rw [hcovers.slice_eq]
    exact hread
  · rw [hbase, hstart]
  · have hstop := hcovers.stop_eq
    have hinside := hshaped.cuts.isBoundary.2.1
    rw [hspan, Span.shift]
    refine ⟨Nat.le_add_left _ _, ?_⟩
    dsimp only
    omega
  · rw [hspan, hstart, touches_shift hle, ← hoffset]
    exact htouches
  · intro w hw
    have hown : e.node.span.Covers source.text w := by
      have htells := hshaped.tells
      revert hw htells
      cases e.node <;> intro hw htells <;> cases hw <;> exact htells
    rw [hspan]
    exact (hcovers.trans hown).slice_eq

/-- Wherever something is read there is an item, as the list divides all of it. -/
theorem exists_listItem?_of_embedded? (t : Text) (offset : Nat) {source : Embedded} :
    let l := inspect (Document.parse t) offset
    l.embedded? = some source → ∃ item, item ∈ (parseList source.text).items ∧
      (SimpleList.segmentOf item).touches (l.offset - source.base) = true ∧
      source.base ≤ l.offset ∧
      l.listItem? = some ⟨parseList source.text, item, source.base⟩ := by
  intro l h
  obtain ⟨s, -, hstart, hcovers, htouches⟩ := Location.exists_span_of_embedded? t offset h
  change s.touches l.offset = true at htouches
  rw [Span.touches_iff, hcovers.stop_eq, hstart] at htouches
  have hin : l.offset - source.base ≤ source.text.width := by omega
  obtain ⟨n, item, hget, hitem, htouches', -⟩ := (divides_parseList source.text).found _ hin
  refine ⟨item, List.mem_of_getElem? hget, htouches', htouches.1, ?_⟩
  rw [Location.listItem?, h, Option.bind_some, if_pos htouches.1, hitem, Option.map_some]

theorem isSome_listItem?_iff (t : Text) (offset : Nat) :
    let l := inspect (Document.parse t) offset
    l.listItem?.isSome = true ↔ l.IsOnSource := by
  intro l
  have hread := Location.isSome_embedded?_iff t offset
  refine Iff.trans ?_ hread
  cases h : l.embedded? with
  | none =>
    rw [Location.listItem?, h]
    rfl
  | some source =>
    obtain ⟨item, -, -, -, hitem⟩ := exists_listItem?_of_embedded? t offset h
    change l.listItem? = _ at hitem
    rw [hitem]
    exact iff_of_true rfl rfl

theorem isAbout_of_listItem? (t : Text) (offset : Nat) {i : ListItemAt} :
    let l := inspect (Document.parse t) offset
    l.listItem? = some i → ∃ s, l.sourceSpan? = some s ∧ i.IsAbout t s l.offset := by
  intro l h
  obtain ⟨source, hsource, -⟩ := Option.bind_eq_some_iff.1 h
  obtain ⟨s, hs, hstart, hcovers, -⟩ := Location.exists_span_of_embedded? t offset hsource
  obtain ⟨item, hmem, htouches, hle, hitem⟩ := exists_listItem?_of_embedded? t offset hsource
  obtain rfl := Option.some.inj (hitem.symm.trans h)
  refine ⟨s, hs, ⟨?_, hmem, hstart.symm, ?_, ?_⟩⟩
  · rw [hcovers.slice_eq]
  · rw [touches_shift hle]
    exact htouches
  · have hdivides := divides_parseList source.text
    by_cases hempty : item = .emptyItem (SimpleList.segmentOf item)
    · exact .inr ⟨_, hempty, by rw [hempty]; rfl⟩
    · obtain ⟨range, value, expression, heq, htrims, hvalue⟩ := hdivides.item item hmem hempty
      obtain ⟨w, hrange, -⟩ := htrims.inner
      obtain rfl : w = value := hrange.slice_eq.symm.trans hvalue
      refine .inl ⟨range, _, w, expression, heq, by rw [ListItemAt.value, heq]; rfl, ?_⟩
      have hspan : ListItemAt.span ⟨parseList source.text, item, source.base⟩ =
          range.shift s.start := by
        rw [ListItemAt.span, heq, hstart]
        rfl
      rw [hspan]
      exact (hcovers.trans hrange).slice_eq

/-- **Expression answers are about the queried bytes.** -/
theorem answers_about_text (t : Text) (offset : Nat) :
    let l := inspect (Document.parse t) offset
    l.offset = min offset t.width ∧
      (∀ e, l.expression? = some e → ∃ s, l.sourceSpan? = some s ∧ e.IsAbout t s l.offset) ∧
      (l.listItem?.isSome = true ↔ l.IsOnSource) ∧
      ∀ i, l.listItem? = some i → ∃ s, l.sourceSpan? = some s ∧ i.IsAbout t s l.offset :=
  ⟨offset_inspect t offset, fun _ => isAbout_of_expression? t offset,
    isSome_listItem?_iff t offset, fun _ => isAbout_of_listItem? t offset⟩

/-- Spans count from the quote on: the reference behind the separator, and the item that it is. -/
theorem answers_about_text_attribute :
    let t := "<P A='x;$(B)'/>".toList
    let l := inspect (Document.parse t) 11
    ∃ e i s, l.expression? = some e ∧ l.listItem? = some i ∧ l.sourceSpan? = some s ∧
      e.IsAbout t s l.offset ∧ i.IsAbout t s l.offset := by
  intro t l
  have hsome : l.expression?.isSome = true ∧ l.listItem?.isSome = true := by decide +kernel
  obtain ⟨e, he⟩ := Option.isSome_iff_exists.1 hsome.1
  obtain ⟨i, hi⟩ := Option.isSome_iff_exists.1 hsome.2
  obtain ⟨-, hexpression, -, hitem⟩ := answers_about_text t 11
  obtain ⟨s, hs, habout⟩ := hexpression e he
  obtain ⟨s', hs', habout'⟩ := hitem i hi
  obtain rfl : s' = s := Option.some.inj (hs'.symm.trans hs)
  exact ⟨e, i, s', he, hi, hs', habout, habout'⟩

end ProjectFile.Editor
