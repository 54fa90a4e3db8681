import ProjectFile.Proofs.Markup.Leaves
import ProjectFile.Proofs.Text.Cuts

/-!
What the view shows stands in the text.

Every item of the view is made of the part of the text that it spans (`Document.stands_views`): on the
way down from the document, a part of the text is divided into the parts of what is in it. So the
value of an attribute is what stands between its quotes (`PlacedAttribute.covers_value`).
-/

namespace ProjectFile

/-- Whether a text holds a part that starts at an offset. -/
def Text.StandsAt (t : Text) (offset : Nat) (w : Text) : Prop := (Span.ofSize offset w.width).Covers t w

namespace Text.StandsAt

variable {t v w : Text} {offset : Nat}

theorem left (h : t.StandsAt offset (v ++ w)) : t.StandsAt offset v :=
  (Span.Covers.split h).1

theorem right (h : t.StandsAt offset (v ++ w)) : t.StandsAt (offset + v.width) w := by
  have hright := (Span.Covers.split h).2
  rw [Span.ofSize, Text.width_append, ← Nat.add_assoc] at hright
  exact hright

end Text.StandsAt

/-- A part of a part of a text is a part of the text, as much further on as the part starts. -/
theorem Span.Covers.trans {s r : Span} {t v w : Text} (hs : s.Covers t w) (hr : r.Covers w v) :
    (r.shift s.start).Covers t v := by
  obtain ⟨a, b, rfl, hstart, -⟩ := hs
  obtain ⟨a', b', rfl, hstart', hstop'⟩ := hr
  refine ⟨a ++ a', b' ++ b, by simp, ?_, ?_⟩
  · rw [Span.shift, hstart, hstart', Text.width_append, Nat.add_comm]
  · rw [Span.shift, hstart, hstop', Text.width_append]
    dsimp only
    omega

namespace Markup

/-! ## Attributes -/

/-- Where there is the span of a value there is a value. -/
theorem PlacedAttribute.exists_value {a : PlacedAttribute} {s : Span} (h : a.valueSpan = some s) :
    ∃ w, a.value = some w := by
  rw [valueSpan] at h
  rw [value, Attribute.value]
  cases hassignment : a.attr.assignment with
  | value before after quoted => exact ⟨quoted.body, rfl⟩
  | _ =>
    rw [hassignment] at h
    cases h

theorem PlacedAttribute.covers_value {t : Text} {a : PlacedAttribute}
    (h : t.StandsAt a.start a.attr.text) {s : Span} (hs : a.valueSpan = some s) {w : Text}
    (hw : a.value = some w) : s.Covers t w := by
  rw [Attribute.text] at h
  rw [valueSpan] at hs
  rw [value, Attribute.value] at hw
  split at hs
  · next before after quoted hassignment =>
    rw [hassignment] at h hw
    obtain rfl := Option.some.inj hs
    obtain rfl := Option.some.inj hw
    have hbehind : t.StandsAt (a.nameSpan.stop + before.width + 1) (after ++ quoted.text) :=
      Text.StandsAt.right (v := ['=']) h.right.right
    have hbody := Text.StandsAt.right (v := [quoted.quote]) hbehind.right
    exact hbody.left
  · cases hs

/-! ## Views -/

/-- Whether an item is made of the part of the text that it spans. -/
def Item.Stands (t : Text) : Item → Prop
  | .element e => t.StandsAt e.start e.node.text
  | .attribute a => t.StandsAt a.start a.attr.text
  | .content _ start text => t.StandsAt start text

variable {t : Text}

theorem TagItem.stands_viewsOfAll (enclosing : List Enclosure) (before : List Item) (offset : Nat)
    (items : List TagItem) (h : t.StandsAt offset (items.flatMap text)) :
    ∀ v ∈ viewsOfAll enclosing before offset items, v.item.Stands t := by
  induction items generalizing before offset with
  | nil => exact List.forall_mem_nil _
  | cons i items ih =>
    rw [List.flatMap_cons] at h
    match i with
    | .attribute a => exact List.forall_mem_cons.2 ⟨h.left, ih _ _ h.right⟩
    | .filler f => exact ih _ _ h.right

namespace Node

mutual

theorem stands_views (enclosing : List Enclosure) (before after : List Item) (offset : Nat) :
    ∀ n : Node, t.StandsAt offset n.text →
      ∀ v ∈ n.views enclosing before after offset, v.item.Stands t
  | .element tag content endTag => by
    intro h
    have hitems : t.StandsAt (offset + tag.opener.width + (tag.name.getD []).width)
        (tag.items.flatMap TagItem.text) := h.left.right.right.left
    have hcontent : t.StandsAt (offset + tag.text.width) (textOfAll content) := h.right.left
    rw [views]
    refine List.forall_mem_cons.2 ⟨h, List.forall_mem_append.2 ⟨?_, ?_⟩⟩
    · exact TagItem.stands_viewsOfAll _ _ _ _ hitems
    · exact stands_viewsOfAll _ _ _ _ content hcontent
  | .strayEnd tag => fun _ => by
    rw [views]
    exact List.forall_mem_nil _
  | .run kind text => by
    intro h v hv
    rw [views] at hv
    obtain ⟨k, -, rfl⟩ := Option.map_eq_some_iff.1 (Option.mem_toList.1 hv)
    exact h

theorem stands_viewsOfAll (enclosing : List Enclosure) (before items : List Item) (offset : Nat) :
    ∀ ns : List Node, t.StandsAt offset (textOfAll ns) →
      ∀ v ∈ viewsOfAll enclosing before items offset ns, v.item.Stands t
  | [] => fun _ => by
    rw [viewsOfAll]
    exact List.forall_mem_nil _
  | n :: ns => by
    intro h
    rw [textOfAll] at h
    have hrest := h.right
    rw [← Node.width_eq] at hrest
    rw [viewsOfAll]
    exact List.forall_mem_append.2 ⟨stands_views _ _ _ _ n h.left,
      stands_viewsOfAll _ _ _ _ ns hrest⟩

end

end Node

/-- **Every item of the view of a text is made of the part that it spans.** -/
theorem Document.stands_views (t : Text) : ∀ v ∈ (parse t).views, v.item.Stands t := by
  unfold parse
  split
  · exact List.forall_mem_nil _
  · have hwhole : t.StandsAt 0 (Node.textOfAll (Node.ofPieces (Piece.ofText t))) := by
      rw [Node.textOfAll_ofPieces_ofText, Text.StandsAt, Span.ofSize, Nat.zero_add]
      exact Span.covers_whole t
    exact Node.stands_viewsOfAll _ _ _ 0 _ hwhole

end Markup

end ProjectFile
